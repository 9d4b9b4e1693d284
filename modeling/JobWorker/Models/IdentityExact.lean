import Mathlib.Data.String.Basic
import JobWorker.Models.PythonText

/-!
# `identity_exact`

The bytes that `identity_exact` hashes, `job_worker/job.py:24–37`. The texts are joined without
anything between them; read from the end, only the model and method names run into each other. Of
a dictionary, the order of the items is in the text.
-/

namespace JobWorker

open TextsFromEnd

/-- What `identity_exact` reads of a `Delayable`; `_job_args` is a tuple, `_job_kwargs` a
dictionary; `delay.py:43–45,66–80`. -/
structure IdentityCall where
  modelName : String
  methodName : String
  recordIds : List Nat
  args : List PyValue
  kwargs : List (String × PyValue)
  nodup : (kwargs.map Prod.fst).Nodup

variable (isPrintable : Char → Bool)

/-- `str(sorted(ids))`. -/
def idsText (ids : List Nat) : List Char :=
  '[' :: commaSeparated ((ids.insertionSort (· ≤ ·)).map (Nat.toDigits 10)) ++ [']']

/-- `repr` of an item of `kwargs.items()`. -/
def kwargText (item : String × PyValue) : List Char :=
  '(' :: strText isPrintable item.1 ++ [',', ' '] ++ item.2.text isPrintable ++ [')']

/-- `str(sorted(kwargs.items()))`; no two items have one key. -/
def kwargsText (kwargs : List (String × PyValue)) : List Char :=
  '[' :: commaSeparated ((kwargs.insertionSort (·.1 ≤ ·.1)).map (kwargText isPrintable)) ++ [']']

/-- What `identity_exact_hasher` is fed; `job.py:24–32`. -/
def IdentityCall.bytes (c : IdentityCall) : ByteArray :=
  c.modelName.toUTF8 ++ c.methodName.toUTF8 ++ (String.ofList (idsText c.recordIds)).toUTF8 ++
    (String.ofList (tupleText isPrintable c.args)).toUTF8 ++
    (String.ofList (kwargsText isPrintable c.kwargs)).toUTF8

/-! ### Equal values -/

/-- The items of two dictionaries, or keyword arguments, up to their order. -/
inductive SameItems {α : Type} (same : PyValue → PyValue → Prop) :
    List (α × PyValue) → List (α × PyValue) → Prop
  | nil : SameItems same [] []
  | cons {key : α} {v w : PyValue} {xs ys : List (α × PyValue)} :
      same v w → SameItems same xs ys → SameItems same ((key, v) :: xs) ((key, w) :: ys)
  | perm {xs ys zs : List (α × PyValue)} :
      SameItems same xs ys → ys.Perm zs → SameItems same xs zs

/-- Two values, up to the order of the items of dictionaries. -/
inductive PyValue.Same : PyValue → PyValue → Prop
  | scalar (s : PyScalar) : Same (.scalar s) (.scalar s)
  | list {xs ys : List PyValue} : List.Forall₂ Same xs ys → Same (.list xs) (.list ys)
  | dict {xs ys : List (PyScalar × PyValue)} : SameItems Same xs ys → Same (.dict xs) (.dict ys)

namespace IdentityCall

/-- The same call, with keyword arguments in any order. -/
structure Same (c d : IdentityCall) : Prop where
  modelName : c.modelName = d.modelName
  methodName : c.methodName = d.methodName
  recordIds : c.recordIds.Perm d.recordIds
  args : List.Forall₂ PyValue.Same c.args d.args
  kwargs : SameItems PyValue.Same c.kwargs d.kwargs

/-- The arguments of both calls have the same texts. -/
def SameTexts (c d : IdentityCall) : Prop := c.args = d.args ∧ c.kwargs.Perm d.kwargs

/-- Two calls on the same records with the same arguments, whose model and method names divide one
text differently. -/
structure SplitsNames (c d : IdentityCall) : Prop where
  names : c.modelName ++ c.methodName = d.modelName ++ d.methodName
  modelName : c.modelName ≠ d.modelName
  recordIds : c.recordIds.Perm d.recordIds
  sameTexts : c.SameTexts d

/-- The same call, with some dictionary among the arguments in another order. -/
structure ReordersDict (c d : IdentityCall) : Prop where
  same : c.Same d
  notSameTexts : ¬ c.SameTexts d

end IdentityCall

/-! ### The texts of a call -/

section Texts

variable {isPrintable : Char → Bool} {A B : List Char}

theorem idsText_eq (ids : List Nat) : idsText ids =
    sequence '[' ',' ' ' (Nat.toDigits 10) (ids.insertionSort (· ≤ ·)) ++ [']'] := rfl

theorem kwargsText_eq (kwargs : List (String × PyValue)) : kwargsText isPrintable kwargs =
    sequence '[' ',' ' ' (kwargText isPrintable) (kwargs.insertionSort (·.1 ≤ ·.1)) ++ [']'] := rfl

theorem wordChar_of_mem_toDigits {n : Nat} {c : Char} (h : c ∈ Nat.toDigits 10 n) :
    WordChar c := by
  have hdigit := Nat.isDigit_of_mem_toDigits (by decide) (by decide) h
  exact .inl (by simp [Char.isAlphanum, hdigit])

theorem not_opening_of_mem_toDigits {n : Nat} {c : Char} (h : c ∈ Nat.toDigits 10 n) :
    ¬ Opening c :=
  fun ho ↦ (wordChar_of_mem_toDigits h).not_punctuation ho.punctuation

theorem ends_toDigits (n : Nat) : Ends (fun c ↦ ¬ Opening c) (Nat.toDigits 10 n) :=
  ⟨_, _, (List.dropLast_append_getLast Nat.toDigits_ne_nil).symm,
    not_opening_of_mem_toDigits (List.getLast_mem _)⟩

theorem readable_toDigits (n : Nat) : Readable (Ends Opening) (Nat.toDigits 10) n := by
  intro m A B hA hB h
  obtain ⟨hAB, hdigits⟩ := word_inj (fun c ↦ not_opening_of_mem_toDigits)
    (fun c ↦ not_opening_of_mem_toDigits) hA hB h
  exact ⟨hAB, toDigits_inj hdigits⟩

/-- The ids are read from the end, but for their order. -/
theorem idsText_read {ids ids' : List Nat} (h : A ++ idsText ids = B ++ idsText ids') :
    A = B ∧ ids.Perm ids' := by
  simp only [idsText_eq, ← List.append_assoc] at h
  obtain ⟨hAB, hsorted⟩ := sequence_inj (p := Opening) (by simp [Opening]) (by simp [Opening])
    (by decide) ends_toDigits (fun n _ ↦ readable_toDigits n) (concat_inj.mp h).1
  refine ⟨hAB, (List.perm_insertionSort (· ≤ ·) ids).symm.trans ?_⟩
  rw [hsorted]
  exact List.perm_insertionSort _ _

theorem readable_kwargText (item : String × PyValue) :
    Readable (Ends Opening) (kwargText isPrintable) item := by
  intro item' A B _ _ h
  have hcomma {C : List Char} {key : String} :
      Ends Opening (C ++ '(' :: strText isPrintable key ++ [',', ' ']) :=
    ⟨C ++ '(' :: strText isPrintable key ++ [','], ' ', by simp, by simp [Opening]⟩
  have hparen {C : List Char} : Ends Opening (C ++ ['(']) := ⟨C, '(', rfl, by simp [Opening]⟩
  simp only [kwargText, ← List.append_assoc] at h
  obtain ⟨h, hvalue⟩ := readable_value item.2 item'.2 _ _ hcomma hcomma (concat_inj.mp h).1
  have h := List.append_cancel_right h
  rw [List.append_cons, List.append_cons B] at h
  obtain ⟨hAB, hkey⟩ := strText_read hparen hparen h
  exact ⟨(concat_inj.mp hAB).1, Prod.ext hkey hvalue⟩

/-- The keyword arguments are read from the end, but for their order. -/
theorem kwargsText_read {kwargs kwargs' : List (String × PyValue)}
    (h : A ++ kwargsText isPrintable kwargs = B ++ kwargsText isPrintable kwargs') :
    A = B ∧ kwargs.Perm kwargs' := by
  have hends (item : String × PyValue) :
      Ends (fun c ↦ ¬ Opening c) (kwargText isPrintable item) :=
    ⟨_, ')', rfl, by simp [Opening]⟩
  simp only [kwargsText_eq, ← List.append_assoc] at h
  obtain ⟨hAB, hsorted⟩ := sequence_inj (p := Opening) (by simp [Opening]) (by simp [Opening])
    (by decide) hends (fun item _ ↦ readable_kwargText item) (concat_inj.mp h).1
  refine ⟨hAB, (List.perm_insertionSort (·.1 ≤ ·.1) kwargs).symm.trans ?_⟩
  rw [hsorted]
  exact List.perm_insertionSort _ _

theorem idsText_congr {ids ids' : List Nat} (h : ids.Perm ids') : idsText ids = idsText ids' := by
  have hsorted : ids.insertionSort (· ≤ ·) = ids'.insertionSort (· ≤ ·) :=
    List.Perm.eq_of_pairwise (fun _ _ _ _ ↦ Nat.le_antisymm) (List.pairwise_insertionSort _ _)
      (List.pairwise_insertionSort _ _)
      (((List.perm_insertionSort _ _).trans h).trans (List.perm_insertionSort _ _).symm)
  rw [idsText, hsorted, idsText]

theorem kwargsText_congr {kwargs kwargs' : List (String × PyValue)} (h : kwargs.Perm kwargs')
    (hnodup : (kwargs.map Prod.fst).Nodup) :
    kwargsText isPrintable kwargs = kwargsText isPrintable kwargs' := by
  have : Std.Total fun a b : String × PyValue ↦ a.1 ≤ b.1 := ⟨fun a b ↦ le_total a.1 b.1⟩
  have : IsTrans (String × PyValue) fun a b ↦ a.1 ≤ b.1 := ⟨fun _ _ _ ↦ le_trans⟩
  have hsorted : kwargs.insertionSort (·.1 ≤ ·.1) = kwargs'.insertionSort (·.1 ≤ ·.1) := by
    refine List.Perm.eq_of_pairwise (fun a b ha hb hab hba ↦ ?_) (List.pairwise_insertionSort _ _)
      (List.pairwise_insertionSort _ _)
      (((List.perm_insertionSort _ _).trans h).trans (List.perm_insertionSort _ _).symm)
    exact List.inj_on_of_nodup_map hnodup ((List.mem_insertionSort _).mp ha)
      (h.mem_iff.mpr ((List.mem_insertionSort _).mp hb)) (le_antisymm hab hba)
  rw [kwargsText, hsorted, kwargsText]

end Texts

namespace IdentityCall

variable {isPrintable : Char → Bool} {c d : IdentityCall}

/-- All of the text of a call. -/
def text (isPrintable : Char → Bool) (c : IdentityCall) : List Char :=
  (c.modelName ++ c.methodName).toList ++ idsText c.recordIds ++ tupleText isPrintable c.args ++
    kwargsText isPrintable c.kwargs

theorem bytes_eq : c.bytes isPrintable = (String.ofList (c.text isPrintable)).toByteArray := by
  simp only [bytes, text, String.toUTF8, String.ofList_append, String.ofList_toList,
    String.toByteArray_append]

/-- The bytes keep everything but the end of the model name and the orders of the ids and of the
keyword arguments. -/
theorem bytes_eq_iff : c.bytes isPrintable = d.bytes isPrintable ↔
    c.modelName ++ c.methodName = d.modelName ++ d.methodName ∧ c.recordIds.Perm d.recordIds ∧
      c.SameTexts d := by
  rw [bytes_eq, bytes_eq, String.toByteArray_inj, String.ofList_inj]
  constructor
  · intro h
    obtain ⟨h, hkwargs⟩ := kwargsText_read h
    obtain ⟨h, hargs⟩ := tupleText_read h
    obtain ⟨h, hids⟩ := idsText_read h
    exact ⟨String.toList_inj.mp h, hids, hargs, hkwargs⟩
  · rintro ⟨hnames, hids, hargs, hkwargs⟩
    rw [text, hnames, idsText_congr hids, hargs, kwargsText_congr hkwargs c.nodup, text]

end IdentityCall

/-! ### Two calls -/

theorem SameItems.of_eq {α : Type} {same : PyValue → PyValue → Prop} {xs : List (α × PyValue)}
    (h : ∀ item ∈ xs, same item.2 item.2) : SameItems same xs xs := by
  induction xs with
  | nil => exact .nil
  | cons item xs ih =>
    obtain ⟨hitem, hxs⟩ := List.forall_mem_cons.mp h
    exact .cons hitem (ih hxs)

theorem PyValue.Same.refl (v : PyValue) : v.Same v := by
  induction v using PyValue.tree_induction with
  | scalar s => exact .scalar s
  | list items ih => exact .list (List.forall₂_same.mpr ih)
  | dict items ih => exact .dict (.of_eq ih)

namespace IdentityCall

variable {c d : IdentityCall}

theorem SameTexts.args (h : c.SameTexts d) : List.Forall₂ PyValue.Same c.args d.args := by
  rw [← h.1]
  exact List.forall₂_same.mpr fun v _ ↦ .refl v

theorem SameTexts.kwargs (h : c.SameTexts d) : SameItems PyValue.Same c.kwargs d.kwargs :=
  .perm (.of_eq fun item _ ↦ .refl item.2) h.2

end IdentityCall

/-- `identity_exact` tells two calls apart exactly if neither their names divide one text
differently nor a dictionary among their arguments is in another order. -/
theorem identityExact_separates_iff (isPrintable : Char → Bool) (c d : IdentityCall) :
    (c.bytes isPrintable = d.bytes isPrintable ↔ c.Same d) ↔
      ¬ c.SplitsNames d ∧ ¬ c.ReordersDict d := by
  rw [IdentityCall.bytes_eq_iff]
  constructor
  · intro h
    constructor
    · intro hsplit
      have hsame := h.mp ⟨hsplit.names, hsplit.recordIds, hsplit.sameTexts⟩
      exact hsplit.modelName hsame.modelName
    · intro hreorders
      exact hreorders.notSameTexts (h.mpr hreorders.same).2.2
  · rintro ⟨hsplit, hreorders⟩
    constructor
    · rintro ⟨hnames, hids, htexts⟩
      have hmodel : c.modelName = d.modelName := by
        by_contra hne
        exact hsplit ⟨hnames, hne, hids, htexts⟩
      have hmethod : c.methodName = d.methodName := by
        rw [hmodel] at hnames
        exact (String.append_right_inj _).mp hnames
      exact ⟨hmodel, hmethod, hids, htexts.args, htexts.kwargs⟩
    · intro hsame
      have htexts : c.SameTexts d := by
        by_contra hne
        exact hreorders ⟨hsame, hne⟩
      exact ⟨by rw [hsame.modelName, hsame.methodName], hsame.recordIds, htexts⟩

/-- A call on one record without arguments. -/
def callOf (modelName methodName : String) : IdentityCall where
  modelName := modelName
  methodName := methodName
  recordIds := [1]
  args := []
  kwargs := []
  nodup := List.nodup_nil

/-- `_sync` of `res.partner` and `sync` of `res.partner_`. -/
theorem not_identityExact_separates :
    ¬ ((callOf "res.partner" "_sync").bytes (fun _ ↦ true) =
          (callOf "res.partner_" "sync").bytes (fun _ ↦ true) ↔
        (callOf "res.partner" "_sync").Same (callOf "res.partner_" "sync")) := by
  intro h
  have hsame := h.mp (IdentityCall.bytes_eq_iff.mpr ⟨by decide, .refl _, rfl, .refl _⟩)
  exact absurd hsame.modelName (by decide)

end JobWorker
