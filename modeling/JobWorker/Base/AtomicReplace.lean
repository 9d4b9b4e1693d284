import JobWorker.Base.Runs
import Mathlib.Data.List.TakeDrop
import Mathlib.Logic.Function.Basic

/-!
# Atomic replacement of a file

A writer fills a temporary file piece by piece and renames it onto the target. Names point to
inodes, so a reader goes on with the file that it has opened whatever the names do later. A
writer may stop at any point and leave its temporary file behind, and a restart may wipe both
names. As long as no writer begins while another one writes, a reader sees complete values
only, and the target holds the value replaced last.
-/

namespace AtomicReplace

open Transition

variable {ι β : Type}

/-- A temporary file that is open for writing, with the bytes that are still to come. -/
structure Handle (β : Type) where
  inode : Nat
  offset : Nat
  rest : List β
  bytes : List β

/-- The two names, the files, the writers and the files that readers have open. -/
structure Files (ι β : Type) where
  target : Option Nat := none
  temporary : Option Nat := none
  content : Nat → List β := fun _ ↦ []
  nextInode : Nat := 0
  writer : ι → Option (Handle β) := fun _ ↦ none
  readers : List Nat := []

/-- Steps of the writers and readers. A writer that crashes may begin again. -/
inductive Action (ι β : Type)
  | openTemporary (i : ι) (bytes : List β)
  | flush (i : ι) (n : Nat)
  | replace (i : ι)
  | crash (i : ι)
  | wipe
  | openTarget

/-- Only a wipe takes the target away. -/
def Action.wipes : Action ι β → Bool
  | .wipe => true
  | _ => false

/-- A write at an offset; a gap in front of it reads as `zero`. -/
def writeAt (zero : β) (c : List β) (offset : Nat) (bytes : List β) : List β :=
  let padded := c ++ List.replicate (offset - c.length) zero
  padded.take offset ++ bytes ++ padded.drop (offset + bytes.length)

/-- A write at the end appends. -/
@[simp] theorem writeAt_length (zero : β) (c bytes : List β) :
    writeAt zero c c.length bytes = c ++ bytes := by
  simp [writeAt]

variable [DecidableEq ι]

namespace Files

/-- The file that opening for writing truncates, or makes. -/
def opening (s : Files ι β) : Nat := s.temporary.getD s.nextInode

/-- Opening for writing truncates the file or makes a new one. -/
def openTemporary (s : Files ι β) (i : ι) (bytes : List β) : Files ι β :=
  { s with
    temporary := some s.opening
    content := Function.update s.content s.opening []
    nextInode := if s.temporary.isNone then s.nextInode + 1 else s.nextInode
    writer := Function.update s.writer i (some ⟨s.opening, 0, bytes, bytes⟩) }

/-- The closed temporary file takes the place of the target; without one the call raises. -/
def replace (s : Files ι β) (i : ι) : Files ι β :=
  { s with
    target := if s.temporary.isSome then s.temporary else s.target
    temporary := none
    writer := Function.update s.writer i none }

/-- The next piece reaches the file. -/
def flush [Inhabited β] (s : Files ι β) (i : ι) (h : Handle β) (n : Nat) : Files ι β :=
  { s with
    content := Function.update s.content h.inode
      (writeAt default (s.content h.inode) h.offset (h.rest.take n))
    writer := Function.update s.writer i (some { h with
      offset := h.offset + (h.rest.take n).length
      rest := h.rest.drop n }) }

section Fields

variable (s : Files ι β) (i : ι) (bytes : List β) (h : Handle β) (n : Nat)

@[simp] theorem content_openTemporary :
    (s.openTemporary i bytes).content = Function.update s.content s.opening [] := rfl

@[simp] theorem writer_openTemporary : (s.openTemporary i bytes).writer =
    Function.update s.writer i (some ⟨s.opening, 0, bytes, bytes⟩) := rfl

@[simp] theorem target_openTemporary : (s.openTemporary i bytes).target = s.target := rfl

@[simp] theorem temporary_openTemporary :
    (s.openTemporary i bytes).temporary = some s.opening := rfl

@[simp] theorem writer_replace :
    (s.replace i).writer = Function.update s.writer i none := rfl

@[simp] theorem content_replace : (s.replace i).content = s.content := rfl

variable [Inhabited β]

@[simp] theorem content_flush : (s.flush i h n).content =
    Function.update s.content h.inode
      (writeAt default (s.content h.inode) h.offset (h.rest.take n)) := rfl

@[simp] theorem writer_flush : (s.flush i h n).writer =
    Function.update s.writer i (some { h with
      offset := h.offset + (h.rest.take n).length
      rest := h.rest.drop n }) := rfl

@[simp] theorem target_flush : (s.flush i h n).target = s.target := rfl

@[simp] theorem temporary_flush : (s.flush i h n).temporary = s.temporary := rfl

end Fields

/-- One step, where it is possible. -/
def next [Inhabited β] (s : Files ι β) : Action ι β → Option (Files ι β)
  | .openTemporary i bytes =>
    match s.writer i with
    | none => some (s.openTemporary i bytes)
    | some _ => none
  | .flush i n => (s.writer i).map fun h ↦ s.flush i h n
  | .replace i => (s.writer i).bind fun h ↦ if h.rest.isEmpty then some (s.replace i) else none
  | .crash i => some { s with writer := Function.update s.writer i none }
  | .wipe => some { s with target := none, temporary := none, writer := fun _ ↦ none }
  | .openTarget => s.target.map fun n ↦ { s with readers := n :: s.readers }

/-- No file and no writer. -/
def Starts (s : Files ι β) : Prop := s = {}

/-- No writer begins while another one writes. -/
def Alone (s : Files ι β) : Action ι β → Prop
  | .openTemporary i _ => ∀ j, j ≠ i → s.writer j = none
  | _ => True

/-- The value that a step puts in place. -/
def replaced (s : Files ι β) : Action ι β → Option (List β)
  | .replace i => (s.writer i).map Handle.bytes
  | _ => none

end Files

/-- Runs from no file. -/
abbrev ReplaceRun [Inhabited β] : List (Files ι β × Action ι β) → Files ι β → Prop :=
  Run Files.Starts fun s a s' ↦ s.next a = some s'

/-- The values put in place, the newest first. -/
def replacements (past : List (Files ι β × Action ι β)) : List (List β) :=
  past.filterMap fun p ↦ p.1.replaced p.2

/-- The values put in place since the last wipe, the newest first. -/
def standing : List (Files ι β × Action ι β) → List (List β)
  | [] => []
  | (s, a) :: past => if a.wipes then [] else (s.replaced a).toList ++ standing past

/-- The files behind a run in which no writer begins beside another. -/
structure Sound (past : List (Files ι β × Action ι β)) (s : Files ι β) : Prop where
  alone : ∀ i j h g, s.writer i = some h → s.writer j = some g → i = j
  writer : ∀ i h, s.writer i = some h → s.temporary = some h.inode ∧
    h.offset = (s.content h.inode).length ∧ s.content h.inode ++ h.rest = h.bytes
  temporary : ∀ n, s.temporary = some n → n < s.nextInode ∧ n ∉ s.readers ∧ s.target ≠ some n
  opened : ∀ n, n ∈ s.readers ∨ s.target = some n → n < s.nextInode
  readers : ∀ n ∈ s.readers, s.content n ∈ replacements past
  target : s.target.map s.content = (standing past).head?

section Sound

variable {past : List (Files ι β × Action ι β)} {s s' : Files ι β} {a : Action ι β} {i : ι}
  {bytes : List β}

omit [DecidableEq ι] in
/-- Nothing is written at the start. -/
theorem sound_starts : Sound [] ({} : Files ι β) where
  alone i j h g hi := by cases hi
  writer i h hi := by cases hi
  temporary n hn := by cases hn
  opened n hn := by rcases hn with hn | hn <;> cases hn
  readers n hn := by cases hn
  target := rfl

omit [DecidableEq ι] in
/-- A step that replaces nothing leaves the replacements. -/
theorem replacements_cons_of_none (h : s.replaced a = none) :
    replacements ((s, a) :: past) = replacements past := by
  simp [replacements, h]

omit [DecidableEq ι] in
/-- A step that replaces the target. -/
theorem replacements_cons_of_some (h : s.replaced a = some bytes) :
    replacements ((s, a) :: past) = bytes :: replacements past := by
  simp [replacements, h]

omit [DecidableEq ι] in
/-- A step that replaces and wipes nothing leaves what stands. -/
theorem standing_cons_of_none (hw : a.wipes = false) (h : s.replaced a = none) :
    standing ((s, a) :: past) = standing past := by
  rw [standing, hw, h, if_neg Bool.false_ne_true, Option.toList_none, List.nil_append]

omit [DecidableEq ι] in
/-- A step that replaces the target adds its value. -/
theorem standing_cons_of_some (h : s.replaced a = some bytes) :
    standing ((s, a) :: past) = bytes :: standing past := by
  cases a with
  | replace i =>
    rw [standing, h, Option.toList_some, List.singleton_append]
    exact if_neg Bool.false_ne_true
  | _ => cases h

omit [DecidableEq ι] in
/-- What stands was put in place. -/
theorem standing_subset : standing past ⊆ replacements past := by
  induction past with
  | nil => exact List.Subset.refl _
  | cons p past ih =>
    obtain ⟨s, a⟩ := p
    cases hr : s.replaced a with
    | none =>
      rw [replacements_cons_of_none hr]
      cases hw : a.wipes with
      | false => rwa [standing_cons_of_none hw hr]
      | true =>
        rw [standing, hw, if_pos rfl]
        exact List.nil_subset _
    | some value =>
      rw [replacements_cons_of_some hr, standing_cons_of_some hr]
      exact List.cons_subset_cons _ ih

/-- A writer that begins on its own. -/
theorem Sound.openTemporary (h : Sound past s) (halone : ∀ j, j ≠ i → s.writer j = none) :
    Sound ((s, .openTemporary i bytes) :: past) (s.openTemporary i bytes) := by
  have hrepl : replacements ((s, .openTemporary i bytes) :: past) = replacements past :=
    replacements_cons_of_none rfl
  have hother (n : Nat) (hn : n ∈ s.readers ∨ s.target = some n) :
      n ≠ s.opening := by
    rintro rfl
    rw [Files.opening] at hn
    cases ht : s.temporary with
    | none =>
      rw [ht] at hn
      exact absurd (h.opened _ hn) (Nat.lt_irrefl _)
    | some m =>
      rw [ht] at hn
      exact hn.elim (h.temporary m ht).2.1 (h.temporary m ht).2.2
  have hnext : s.nextInode ≤ (s.openTemporary i bytes).nextInode := by
    simp only [Files.openTemporary]
    split <;> omega
  constructor
  · intro j k g f hj hk
    have hself (j : ι) (g : Handle β) (hj : (s.openTemporary i bytes).writer j = some g) :
        j = i := by
      by_contra hne
      rw [Files.writer_openTemporary, Function.update_of_ne hne, halone j hne] at hj
      cases hj
    rw [hself j g hj, hself k f hk]
  · intro j g hj
    by_cases hne : j = i
    · subst hne
      simp only [Files.writer_openTemporary, Function.update_self, Option.some.injEq] at hj
      subst hj
      simp
    · rw [Files.writer_openTemporary, Function.update_of_ne hne, halone j hne] at hj
      cases hj
  · intro n hn
    simp only [Files.temporary_openTemporary, Option.some.injEq] at hn
    subst hn
    refine ⟨?_, fun hr ↦ hother _ (.inl hr) rfl, fun ht ↦ hother _ (.inr ht) rfl⟩
    cases ht : s.temporary with
    | none => simp [Files.openTemporary, Files.opening, ht]
    | some m => simpa [Files.openTemporary, Files.opening, ht] using (h.temporary m ht).1
  · exact fun n hn ↦ Nat.lt_of_lt_of_le (h.opened n hn) hnext
  · intro n hn
    rw [hrepl, Files.content_openTemporary, Function.update_of_ne (hother n (.inl hn))]
    exact h.readers n hn
  · rw [standing_cons_of_none rfl rfl, ← h.target]
    cases ht : s.target with
    | none => simp [ht]
    | some n => simp [ht, Function.update_of_ne (hother n (.inr ht))]

/-- A piece that reaches the file of the writer. -/
theorem Sound.flush [Inhabited β] {g : Handle β} {n : Nat} (h : Sound past s)
    (hi : s.writer i = some g) :
    Sound ((s, .flush i n) :: past) (s.flush i g n) := by
  have hrepl : replacements ((s, .flush i n) :: past) = replacements past :=
    replacements_cons_of_none rfl
  obtain ⟨htemp, hoffset, hbytes⟩ := h.writer i g hi
  have hother (m : Nat) (hm : m ∈ s.readers ∨ s.target = some m) : m ≠ g.inode := by
    rintro rfl
    exact hm.elim (h.temporary _ htemp).2.1 (h.temporary _ htemp).2.2
  have hself (j : ι) (f : Handle β) (hj : (s.flush i g n).writer j = some f) : j = i := by
    by_contra hne
    rw [Files.writer_flush, Function.update_of_ne hne] at hj
    exact hne (h.alone j i f g hj hi)
  constructor
  · intro j k f f' hj hk
    rw [hself j f hj, hself k f' hk]
  · intro j f hj
    obtain rfl := hself j f hj
    simp only [Files.writer_flush, Function.update_self, Option.some.injEq] at hj
    subst hj
    simp [htemp, hoffset, hbytes]
  · exact h.temporary
  · exact h.opened
  · intro m hm
    rw [hrepl, Files.content_flush, Function.update_of_ne (hother m (.inl hm))]
    exact h.readers m hm
  · rw [standing_cons_of_none rfl rfl, ← h.target]
    cases ht : s.target with
    | none => simp [ht]
    | some m => simp [ht, Function.update_of_ne (hother m (.inr ht))]

/-- A complete temporary file takes the place of the target. -/
theorem Sound.replace {g : Handle β} (h : Sound past s) (hi : s.writer i = some g)
    (hrest : g.rest = []) : Sound ((s, .replace i) :: past) (s.replace i) := by
  have hrepl : replacements ((s, .replace i) :: past) = g.bytes :: replacements past :=
    replacements_cons_of_some (by rw [Files.replaced, hi, Option.map_some])
  obtain ⟨htemp, _, hbytes⟩ := h.writer i g hi
  rw [hrest, List.append_nil] at hbytes
  have hidle (j : ι) : (s.replace i).writer j = none := by
    by_cases hne : j = i
    · rw [hne, Files.writer_replace, Function.update_self]
    · rw [Files.writer_replace, Function.update_of_ne hne]
      cases hj : s.writer j with
      | none => rfl
      | some f => exact absurd (h.alone j i f g hj hi) hne
  constructor
  · intro j k f f' hj
    rw [hidle] at hj
    cases hj
  · intro j f hj
    rw [hidle] at hj
    cases hj
  · intro n hn
    cases hn
  · rintro n (hn | hn)
    · exact h.opened n (.inl hn)
    · simp only [Files.replace, htemp, Option.isSome_some, if_true, Option.some.injEq] at hn
      exact hn ▸ (h.temporary _ htemp).1
  · intro n hn
    rw [hrepl]
    exact List.mem_cons_of_mem _ (h.readers n hn)
  · rw [standing_cons_of_some (by rw [Files.replaced, hi, Option.map_some])]
    simp [Files.replace, htemp, hbytes]

/-- A writer that stops leaves its temporary file behind. -/
theorem Sound.crash (h : Sound past s) : Sound ((s, .crash i) :: past)
    { s with writer := Function.update s.writer i none } := by
  have hrepl : replacements ((s, .crash i) :: past) = replacements past :=
    replacements_cons_of_none rfl
  have hkept (j : ι) (g : Handle β) (hj : Function.update s.writer i none j = some g) :
      s.writer j = some g := by
    by_cases hne : j = i
    · rw [hne, Function.update_self] at hj
      cases hj
    · rwa [Function.update_of_ne hne] at hj
  constructor
  · exact fun j k f g hj hk ↦ h.alone j k f g (hkept j f hj) (hkept k g hk)
  · exact fun j g hj ↦ h.writer j g (hkept j g hj)
  · exact h.temporary
  · exact h.opened
  · rw [hrepl]
    exact h.readers
  · exact h.target

omit [DecidableEq ι] in
/-- A reader opens what is in place. -/
theorem Sound.openTarget {n : Nat} (h : Sound past s) (ht : s.target = some n) :
    Sound ((s, .openTarget) :: past) { s with readers := n :: s.readers } := by
  have hrepl : replacements ((s, .openTarget) :: past) = replacements past :=
    replacements_cons_of_none rfl
  constructor
  · exact h.alone
  · exact h.writer
  · intro m hm
    obtain ⟨hlt, hreaders, htarget⟩ := h.temporary m hm
    refine ⟨hlt, fun hmem ↦ ?_, htarget⟩
    rcases List.mem_cons.mp hmem with rfl | hmem
    · exact htarget ht
    · exact hreaders hmem
  · rintro m (hm | hm)
    · rcases List.mem_cons.mp hm with rfl | hm
      · exact h.opened m (.inr ht)
      · exact h.opened m (.inl hm)
    · exact h.opened m (.inr hm)
  · intro m hm
    rw [hrepl]
    rcases List.mem_cons.mp hm with rfl | hm
    · have htarget := h.target
      rw [ht, Option.map_some] at htarget
      exact standing_subset (List.mem_of_mem_head? htarget.symm)
    · exact h.readers m hm
  · exact h.target

omit [DecidableEq ι] in
/-- A wipe takes the names away, not what readers have open. -/
theorem Sound.wipe (h : Sound past s) : Sound ((s, .wipe) :: past)
    { s with target := none, temporary := none, writer := fun _ ↦ none } := by
  have hrepl : replacements ((s, .wipe) :: past) = replacements past :=
    replacements_cons_of_none rfl
  constructor
  · intro j k f g hj
    cases hj
  · intro j f hj
    cases hj
  · intro n hn
    cases hn
  · rintro n (hn | hn)
    · exact h.opened n (.inl hn)
    · cases hn
  · rw [hrepl]
    exact h.readers
  · rfl

variable [Inhabited β]

/-- Every step on its own keeps the files sound. -/
theorem Sound.next (h : Sound past s) (ha : s.Alone a) (hs : s.next a = some s') :
    Sound ((s, a) :: past) s' := by
  cases a with
  | openTemporary i bytes =>
    rw [Files.next] at hs
    split at hs
    · cases hs
      exact h.openTemporary ha
    · cases hs
  | flush i n =>
    obtain ⟨g, hg, rfl⟩ := Option.map_eq_some_iff.mp hs
    exact h.flush hg
  | replace i =>
    obtain ⟨g, hg, hs⟩ := Option.bind_eq_some_iff.mp hs
    obtain ⟨hrest, hs⟩ := Option.ite_none_right_eq_some.mp hs
    cases hs
    exact h.replace hg (List.isEmpty_iff.mp hrest)
  | crash i =>
    cases hs
    exact h.crash
  | wipe =>
    cases hs
    exact h.wipe
  | openTarget =>
    obtain ⟨n, hn, rfl⟩ := Option.map_eq_some_iff.mp hs
    exact h.openTarget hn

/-- Files are sound in every run whose writers begin on their own. -/
theorem ReplaceRun.sound (h : ReplaceRun past s) (ha : Guarded Files.Alone past) :
    Sound past s := by
  induction h with
  | start h => rw [h]; exact sound_starts
  | step _ hs ih =>
    obtain ⟨ha, hrest⟩ := guarded_cons.mp ha
    exact (ih hrest).next ha hs

/-- A writer that begins beside another one truncates the file that is then renamed. -/
example : (replay Files.next ({} : Files (Fin 2) Char) [.openTemporary 0 ['a'], .flush 0 1,
    .openTemporary 1 ['b'], .replace 0, .openTarget]).map (fun r ↦
      r.2.readers.map r.2.content) = some [[]] := by decide

/-- The bytes of a writer are the ones that it began with. -/
theorem ReplaceRun.began {g : Handle β} (h : ReplaceRun past s) (hi : s.writer i = some g) :
    ∃ p ∈ past, p.2 = .openTemporary i g.bytes := by
  induction h generalizing i g with
  | start h =>
    rw [h] at hi
    cases hi
  | @step past s s' a _ hs ih =>
    have hold {j : ι} {f : Handle β} (hj : s.writer j = some f) :
        ∃ p ∈ (s, a) :: past, p.2 = .openTemporary j f.bytes := by
      obtain ⟨p, hp, heq⟩ := ih hj
      exact ⟨p, List.mem_cons_of_mem _ hp, heq⟩
    cases a with
    | openTemporary j bytes =>
      rw [Files.next] at hs
      split at hs
      · cases hs
        by_cases hne : i = j
        · subst hne
          simp only [Files.writer_openTemporary, Function.update_self, Option.some.injEq] at hi
          subst hi
          exact ⟨_, List.mem_cons_self, rfl⟩
        · rw [Files.writer_openTemporary, Function.update_of_ne hne] at hi
          exact hold hi
      · cases hs
    | flush j n =>
      obtain ⟨f, hf, rfl⟩ := Option.map_eq_some_iff.mp hs
      by_cases hne : i = j
      · subst hne
        simp only [Files.writer_flush, Function.update_self, Option.some.injEq] at hi
        subst hi
        obtain ⟨p, hp, heq⟩ := hold hf
        exact ⟨p, hp, heq⟩
      · rw [Files.writer_flush, Function.update_of_ne hne] at hi
        exact hold hi
    | replace j =>
      obtain ⟨f, _, hs⟩ := Option.bind_eq_some_iff.mp hs
      obtain ⟨_, hs⟩ := Option.ite_none_right_eq_some.mp hs
      cases hs
      by_cases hne : i = j
      · rw [hne, Files.writer_replace, Function.update_self] at hi
        cases hi
      · rw [Files.writer_replace, Function.update_of_ne hne] at hi
        exact hold hi
    | crash j =>
      cases hs
      have hi : Function.update s.writer j none i = some g := hi
      by_cases hne : i = j
      · rw [hne, Function.update_self] at hi
        cases hi
      · rw [Function.update_of_ne hne] at hi
        exact hold hi
    | wipe => cases hs; cases hi
    | openTarget =>
      obtain ⟨n, _, rfl⟩ := Option.map_eq_some_iff.mp hs
      exact hold hi

/-- A value put in place was begun before. -/
theorem ReplaceRun.began_of_mem (h : ReplaceRun past s) (hb : bytes ∈ replacements past) :
    ∃ p ∈ past, ∃ i, p.2 = .openTemporary i bytes := by
  induction h with
  | start _ => cases hb
  | @step past s s' a h _ ih =>
    cases hr : s.replaced a with
    | none =>
      rw [replacements_cons_of_none hr] at hb
      obtain ⟨p, hp, heq⟩ := ih hb
      exact ⟨p, List.mem_cons_of_mem _ hp, heq⟩
    | some value =>
      rw [replacements_cons_of_some hr] at hb
      rcases List.mem_cons.mp hb with rfl | hb
      · cases a with
        | replace i =>
          obtain ⟨g, hg, rfl⟩ := Option.map_eq_some_iff.mp hr
          obtain ⟨p, hp, heq⟩ := ReplaceRun.began h hg
          exact ⟨p, List.mem_cons_of_mem _ hp, i, heq⟩
        | _ => cases hr
      · obtain ⟨p, hp, heq⟩ := ih hb
        exact ⟨p, List.mem_cons_of_mem _ hp, heq⟩

end Sound
end AtomicReplace
