import Mathlib.Data.List.Basic
import Mathlib.Data.List.Induction

/-!
# Texts that can be read from their end

Behind a prefix that is not known, a text may still be read back, from its last character to its
first. A bare word ends where a character follows that may stand in front of an item, a quoted one
at a quote without a backslash in front of it, and a sequence is read item by item.
-/

namespace TextsFromEnd

variable {α : Type}

/-- The last character of a text. -/
def Ends (p : Char → Prop) (t : List Char) : Prop := ∃ t' c, t = t' ++ [c] ∧ p c

/-- The text of `x` can be read behind every prefix that meets `ok`, if there the text of some
value is. -/
def Readable (ok : List Char → Prop) (text : α → List Char) (x : α) : Prop :=
  ∀ y A B, ok A → ok B → A ++ text x = B ++ text y → A = B ∧ x = y

section Ends

variable {p q : Char → Prop} {A B t t' : List Char} {c d : Char}

theorem concat_inj : A ++ [c] = B ++ [d] ↔ A = B ∧ c = d := by
  constructor
  · intro h
    obtain ⟨hA, hc⟩ := List.append_inj' h rfl
    exact ⟨hA, List.singleton_inj.mp hc⟩
  · rintro ⟨rfl, rfl⟩
    rfl

theorem Ends.of_append (h : Ends p t) : Ends p (A ++ t) := by
  obtain ⟨t', c, rfl, hc⟩ := h
  exact ⟨A ++ t', c, (List.append_assoc _ _ _).symm, hc⟩

theorem Ends.imp (h : Ends p t) (hpq : ∀ c, p c → q c) : Ends q t := by
  obtain ⟨t', c, rfl, hc⟩ := h
  exact ⟨t', c, rfl, hpq c hc⟩

/-- A text ends in one way. -/
theorem Ends.unique (h : Ends p t) (h' : Ends q t) : ∃ c, p c ∧ q c := by
  obtain ⟨t', c, rfl, hc⟩ := h
  obtain ⟨u, d, heq, hd⟩ := h'
  obtain ⟨_, rfl⟩ := concat_inj.mp heq
  exact ⟨c, hc, hd⟩

end Ends

section Words

variable {p : Char → Prop} {A B u v : List Char}

/-- Of two prefixes, the longer one would end in a character of a word. -/
theorem prefix_of_word (hu : ∀ c ∈ u, ¬ p c) (hB : Ends p B) (h : A ++ u = B ++ v)
    (hlen : A.length ≤ B.length) : A = B := by
  obtain ⟨w, rfl⟩ := List.prefix_of_prefix_length_le (List.prefix_append A u)
    (h ▸ List.prefix_append B v) hlen
  rcases List.eq_nil_or_concat' w with rfl | ⟨w, c, rfl⟩
  · exact (List.append_nil A).symm
  · exfalso
    obtain ⟨B', d, heq, hd⟩ := hB
    rw [← List.append_assoc] at heq
    obtain ⟨_, rfl⟩ := concat_inj.mp heq
    rw [List.append_assoc] at h
    have hmem : c ∈ u := by
      rw [List.append_cancel_left h]
      simp
    exact hu c hmem hd

/-- A word is read up to a character that is not in words. -/
theorem word_inj (hu : ∀ c ∈ u, ¬ p c) (hv : ∀ c ∈ v, ¬ p c) (hA : Ends p A) (hB : Ends p B)
    (h : A ++ u = B ++ v) : A = B ∧ u = v := by
  have heq : A = B := by
    rcases Nat.le_total A.length B.length with hle | hle
    · exact prefix_of_word hu hB h hle
    · exact (prefix_of_word hv hA h.symm hle).symm
  subst heq
  exact ⟨rfl, List.append_cancel_left h⟩

end Words

section Quotes

/-- Every quote `q` in the text is behind an `escape`. -/
def Escaped (escape q : Char) (b : List Char) : Prop :=
  ∀ r t, b = r ++ q :: t → ∃ r', r = r' ++ [escape]

variable {p : Char → Prop} {escape q r : Char} {A B b b' : List Char}

theorem Escaped.of_not_mem (h : q ∉ b) : Escaped escape q b := by
  rintro r t rfl
  simp at h

theorem Escaped.append (h : Escaped escape q b) (h' : Escaped escape q b') :
    Escaped escape q (b ++ b') := by
  intro r t heq
  rcases List.append_eq_append_iff.mp heq with ⟨s, rfl, hs⟩ | ⟨s, hb, hs⟩
  · obtain ⟨r', rfl⟩ := h' s t hs
    exact ⟨b ++ r', (List.append_assoc _ _ _).symm⟩
  · cases s with
    | nil =>
      obtain ⟨r', hr⟩ := h' [] t (by simpa using hs.symm)
      simp at hr
    | cons c s =>
      obtain ⟨rfl, rfl⟩ := List.cons.inj hs
      exact h r s hb

/-- Of two prefixes, the longer one would end in an escape. -/
theorem prefix_of_quoted (hp : ¬ p escape) (hb : Escaped escape q b) (hB : Ends p B)
    (h : A ++ q :: b = B ++ q :: b') (hlen : A.length ≤ B.length) : A = B := by
  obtain ⟨w, rfl⟩ := List.prefix_of_prefix_length_le (List.prefix_append A (q :: b))
    (h ▸ List.prefix_append B (q :: b')) hlen
  cases w with
  | nil => exact (List.append_nil A).symm
  | cons c w =>
    exfalso
    rw [List.append_assoc] at h
    obtain ⟨rfl, hw⟩ := List.cons.inj (List.append_cancel_left h)
    obtain ⟨w', rfl⟩ := hb w b' hw
    have hend : Ends (· = escape) (A ++ q :: (w' ++ [escape])) :=
      Ends.of_append ⟨q :: w', escape, rfl, rfl⟩
    obtain ⟨d, hd, rfl⟩ := hB.unique hend
    exact hp hd

/-- A quoted text is read up to a quote that is not escaped. -/
theorem quoted_inj (hp : ¬ p escape) (hb : Escaped escape q b) (hb' : Escaped escape r b')
    (hA : Ends p A) (hB : Ends p B) (h : A ++ q :: b ++ [q] = B ++ r :: b' ++ [r]) :
    A = B ∧ q = r ∧ b = b' := by
  obtain ⟨h, rfl⟩ := concat_inj.mp h
  have heq : A = B := by
    rcases Nat.le_total A.length B.length with hle | hle
    · exact prefix_of_quoted hp hb hB h hle
    · exact (prefix_of_quoted hp hb' hA h.symm hle).symm
  subst heq
  exact ⟨rfl, rfl, (List.cons.inj (List.append_cancel_left h)).2⟩

end Quotes

section Sequences

variable {p : Char → Prop} {text : α → List Char} {bracket comma space : Char} {A B : List Char}
  {xs ys : List α}

/-- Items behind an opening bracket, with a comma and a space between them. -/
def sequence (bracket comma space : Char) (text : α → List Char) (xs : List α) : List Char :=
  bracket :: List.intercalate [comma, space] (xs.map text)

/-- The text in front of an item that follows `xs`. -/
def front (bracket comma space : Char) (text : α → List Char) (xs : List α) : List Char :=
  sequence bracket comma space text xs ++ if xs = [] then [] else [comma, space]

theorem intercalate_concat {sep t : List α} {ts : List (List α)} (h : ts ≠ []) :
    List.intercalate sep (ts ++ [t]) = List.intercalate sep ts ++ sep ++ t := by
  induction ts with
  | nil => exact absurd rfl h
  | cons u ts ih =>
    by_cases hts : ts = []
    · subst hts
      simp [List.intercalate_cons_cons, List.intercalate_singleton]
    · rw [List.cons_append, List.intercalate_cons_of_ne_nil (by simp), ih hts,
        List.intercalate_cons_of_ne_nil hts]
      simp only [List.append_assoc]

theorem sequence_concat (x : α) : sequence bracket comma space text (xs ++ [x]) =
    front bracket comma space text xs ++ text x := by
  unfold front sequence
  by_cases hxs : xs = []
  · subst hxs
    simp [List.intercalate_singleton]
  · rw [List.map_append, List.map_singleton, intercalate_concat (by simpa using hxs), if_neg hxs]
    simp only [List.cons_append, List.append_assoc]

/-- An item stands behind a bracket or a space. -/
theorem ends_front (hbracket : p bracket) (hspace : p space) :
    Ends p (A ++ front bracket comma space text xs) := by
  apply Ends.of_append
  unfold front
  split
  · next hxs =>
    subst hxs
    exact ⟨[], bracket, rfl, hbracket⟩
  · exact ⟨_, space, (List.append_assoc _ [comma] [space]).symm, hspace⟩

/-- What stands in front of an item tells whether it is the first one. -/
theorem front_inj (hne : bracket ≠ space)
    (h : A ++ front bracket comma space text xs = B ++ front bracket comma space text ys) :
    A ++ sequence bracket comma space text xs = B ++ sequence bracket comma space text ys := by
  unfold front at h
  -- A single bracket against the space behind an earlier item.
  have hfirst {C D : List Char} : C ++ [bracket] ≠ D ++ [comma, space] := by
    intro h
    rw [show D ++ [comma, space] = (D ++ [comma]) ++ [space] by simp] at h
    exact hne (concat_inj.mp h).2
  by_cases hxs : xs = [] <;> by_cases hys : ys = []
  · simpa [hxs, hys] using h
  · subst hxs
    rw [if_pos rfl, if_neg hys, List.append_nil, ← List.append_assoc] at h
    exact absurd h hfirst
  · subst hys
    rw [if_pos rfl, if_neg hxs, List.append_nil, ← List.append_assoc] at h
    exact absurd h.symm hfirst
  · rw [if_neg hxs, if_neg hys, ← List.append_assoc, ← List.append_assoc] at h
    exact List.append_cancel_right h

/-- A sequence is read item by item. -/
theorem sequence_inj (hbracket : p bracket) (hspace : p space) (hne : bracket ≠ space)
    (hends : ∀ x, Ends (fun c ↦ ¬ p c) (text x)) (hread : ∀ x ∈ xs, Readable (Ends p) text x)
    (h : A ++ sequence bracket comma space text xs = B ++ sequence bracket comma space text ys) :
    A = B ∧ xs = ys := by
  have hempty {C D : List Char} {x : α} {zs : List α} :
      C ++ sequence bracket comma space text [] ≠
        D ++ sequence bracket comma space text (zs ++ [x]) := by
    intro h
    rw [sequence_concat, ← List.append_assoc] at h
    obtain ⟨c, hc, hc'⟩ := Ends.unique (p := p) ⟨C, bracket, h.symm, hbracket⟩
      ((hends x).of_append)
    exact hc' hc
  induction xs using List.reverseRecOn generalizing ys with
  | nil =>
    rcases List.eq_nil_or_concat' ys with rfl | ⟨ys, y, rfl⟩
    · exact ⟨(concat_inj.mp h).1, rfl⟩
    · exact absurd h hempty
  | append_singleton xs x ih =>
    rcases List.eq_nil_or_concat' ys with rfl | ⟨ys, y, rfl⟩
    · exact absurd h.symm hempty
    · rw [sequence_concat, sequence_concat, ← List.append_assoc, ← List.append_assoc] at h
      obtain ⟨hfront, rfl⟩ := hread x (by simp) y _ _ (ends_front hbracket hspace)
        (ends_front hbracket hspace) h
      obtain ⟨rfl, rfl⟩ := ih (fun z hz ↦ hread z (List.mem_append_left _ hz))
        (front_inj hne hfront)
      exact ⟨rfl, rfl⟩

end Sequences

end TextsFromEnd
