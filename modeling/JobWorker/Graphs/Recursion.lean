import JobWorker.Base.Reentry
import JobWorker.Graphs.DelayCalls
import Mathlib.Data.Set.Finite.Basic

/-!
# Recursion of delay

Every delayable is enqueued once at most, and makes its calls of `delay` then
(`job_worker/delay.py:120–165`). Groups and chains have no such guard (`delay.py:240,296`): `delay`
recurses without end exactly if it comes back to one of them through groups and chains alone.
-/

namespace JobWorker

open Delaying

namespace Delaying

/-! ### Notes -/

section Notes

variable {env : DelayEnv} {st st' : Session} {self : Ref}

/-- The objects without a job. -/
def jobless (st : Session) : Set Ref := {r | st.jobOf r = none}

theorem jobless_subset (h : st.Later st') : jobless st' ⊆ jobless st := by
  intro r hr
  by_contra hn
  have hsome := h.isSome (Option.isSome_iff_ne_none.mpr hn)
  rw [show st'.jobOf r = none from hr] at hsome
  cases hsome

/-- What a piece takes its notes from, and what it leaves behind. -/
abbrev SpendsJobs {α : Type} (t : DelayTree (α × Session)) (st : Session) : Prop :=
  t.Spends (fun q ↦ jobless q.2) (fun a ↦ jobless a.2) (fun p ↦ jobless p.2) (jobless st)

/-- A piece that notes nothing, and what follows it. -/
theorem spends_piece_bind {α β : Type} {m : Delaying α} {g : α × Session → DelayTree β}
    {V : β → Set Ref} {U : Set Ref} (hm : m.Total)
    (h : ∀ a st', Returns m st a st' →
      (g (a, st')).Spends (fun q ↦ jobless q.2) (fun a ↦ jobless a.2) V U) :
    (hm.piece st >>= g).Spends (fun q ↦ jobless q.2) (fun a ↦ jobless a.2) V U := by
  unfold Total.piece
  have hrun : (m st).run = some ((m st).run.get (hm st)) := (Option.some_get (hm st)).symm
  generalize (m st).run.get (hm st) = out at hrun ⊢
  rcases out with _ | ⟨a, st'⟩
  · trivial
  · exact h a st' hrun

theorem spends_visit {wire : Wire} {strict : Bool} {roots : List Ref} {previous : Option JobId}
    {first : Bool} (hwire : KeepsLinks wire) :
    SpendsJobs (visitPiece self wire strict previous first roots st) st := by
  induction roots generalizing st previous first with
  | nil => exact subset_rfl
  | cons r roots ih =>
    refine ⟨jobless_subset (Session.later_wired hwire st self previous first r), ?_⟩
    rintro ⟨job, st₁⟩ _
    dsimp only
    split
    · trivial
    · exact ih.bind fun _ _ ↦ subset_rfl

theorem spends_callbacks {wire : Wire} {d : Scheduler} (hwire : KeepsLinks wire) :
    SpendsJobs (callbacksPiece self wire d st) st :=
  (spends_visit hwire).bind fun _ _ ↦ (spends_visit hwire.onError).bind fun _ _ ↦ subset_rfl

/-- The delayable that is enqueued had no job, and has one afterwards. -/
theorem spends_enqueuePiece {β : Type} {g : JobId × Session → DelayTree (β × Session)}
    {call : DelayableCall} {properties : DelayableProperties} {graphUuid : Option Nat}
    (hcls : (st.heap self).cls = .delayable call properties none)
    (h : ∀ job st', st.Later st' → SpendsJobs (g (job, st')) st') :
    SpendsJobs (enqueuePiece env self call properties graphUuid st >>= g) st := by
  unfold enqueuePiece
  dsimp only
  split
  · refine spends_piece_bind _ fun job st' henqueue ↦ ?_
    have hlater := (later_of_enqueueDelayable hcls henqueue).1
    exact (h job st' hlater).mono (jobless_subset hlater)
  · refine ⟨show st.jobOf self = none by rw [Session.jobOf, hcls],
      spends_piece_bind _ fun job st' henqueue ↦ ?_⟩
    obtain ⟨hlater, hjob⟩ := later_of_enqueueDelayable hcls henqueue
    refine (h job st' hlater).mono fun r hr ↦ ⟨jobless_subset hlater hr, ?_⟩
    rintro rfl
    cases hjob.symm.trans hr

/-- `enqueue` is called for delayables without a job only, and gives them one. -/
theorem spends_delayBody (env : DelayEnv) (q : DelayCall) :
    SpendsJobs (delayBody env q) q.2 := by
  obtain ⟨self, st⟩ := q
  by_cases hself : (st.heap self).IsDelayable
  · obtain ⟨call, properties, job, hcls⟩ := hself
    simp only [delayBody, hcls]
    cases job with
    | some job => exact subset_rfl
    | none =>
      refine spends_piece_bind _ fun u st₁ hu ↦ ?_
      have hheap := (eq_of_jobGraphUuid hu).1
      have hlater := Session.later_of_heap hheap
      refine CallTree.Spends.mono ?_ (jobless_subset hlater)
      refine spends_enqueuePiece (by rw [hheap, hcls]) fun job st₂ _ ↦ ?_
      have hwire : KeepsLinks (wireCallback u job) := fun _ _ _ _ ↦ ⟨rfl, rfl, rfl⟩
      refine (spends_callbacks hwire).bind ?_
      rintro ⟨_, st₃⟩ _
      refine spends_piece_bind _ fun _ st₄ h ↦ ?_
      obtain ⟨out, hout, hheap⟩ := run_runWithoutDelay env job st₃
      exact jobless_subset (Session.later_of_heap
        (hheap () st₄ (Option.some.inj (hout.symm.trans h))))
  · obtain ⟨c⟩ := exists_compoundCall env hself
    rw [c.body st (.refl st)]
    refine spends_piece_bind _ fun u st₁ hu ↦ ?_
    have hlater := Session.later_of_heap (eq_of_graphUuidOf hu).1
    refine CallTree.Spends.mono ?_ (jobless_subset hlater)
    refine (spends_visit (c.keepsLinks u)).bind ?_
    rintro ⟨jobs, st₂⟩ _
    exact (spends_callbacks (c.keepsLinks_after u jobs)).bind fun _ _ ↦ subset_rfl

end Notes

end Delaying

/-! ### Unbounded recursion -/

/-- The delayables for which a call of `delay` calls `enqueue`, in order, as deep as the fuel
allows. -/
def enqueueCalls (env : DelayEnv) (fuel : Nat) (r : Ref) (st : Session) : List Ref :=
  (CallTree.recurse (delayBody env) fuel (r, st)).1

/-- The call of `delay` returns or raises, and calls `enqueue` at most once for a delayable. -/
structure DelayEnds (env : DelayEnv) (st : Session) (r : Ref) : Prop where
  ends : ∃ fuel out, (delay env fuel r st).run = some out
  once : ∀ fuel, (enqueueCalls env fuel r st).Nodup

/-- The call of `delay` comes to a group or chain for which, through groups and chains alone,
`delay` is called once more. -/
def DelayComesBack (env : DelayEnv) (st : Session) (r : Ref) : Prop :=
  Reentry.ComesBack (CallTree.Calls (delayBody env)) (fun q ↦ ¬ (q.2.heap q.1).IsDelayable)
    Prod.fst (r, st)

/-- The objects that an object links to, directly or through others, are finitely many. -/
def FinitelyLinked (heap : Ref → Scheduler) (r : Ref) : Prop :=
  {x | Relation.ReflTransGen (fun a b ↦ b ∈ (heap a).links) r x}.Finite

section Recursion

variable {env : DelayEnv} {st : Session} {r : Ref}

theorem ends_iff : CallTree.Ends (delayBody env) (r, st) ↔
    ∃ fuel out, (delay env fuel r st).run = some out := by
  constructor
  · rintro ⟨fuel, notes, out, h⟩
    exact ⟨fuel, out, by rw [← outcome_recurse, h]⟩
  · rintro ⟨fuel, out, h⟩
    rw [← outcome_recurse] at h
    exact ⟨fuel, _, out, CallTree.eq_of_snd h⟩

theorem nodup_enqueueCalls (env : DelayEnv) (fuel : Nat) (r : Ref) (st : Session) :
    (enqueueCalls env fuel r st).Nodup :=
  (CallTree.takenFrom_recurse (spends_delayBody env) fuel (r, st)).nodup

/-- What is called below a call are objects that its object links to, in later sessions. -/
theorem linked_of_calls {q : DelayCall}
    (h : Relation.ReflTransGen (CallTree.Calls (delayBody env)) (r, st) q) : st.Later q.2 ∧
      Relation.ReflTransGen (fun a b ↦ b ∈ (st.heap a).links) r q.1 := by
  induction h with
  | refl => exact ⟨.refl st, .refl⟩
  | @tail q q' _ hcall ih =>
    have hfor := callsFor_of_calls hcall
    exact ⟨ih.1.trans hfor.later, ih.2.tail (ih.1.links q.1 ▸ hfor.link)⟩

/-- A call that comes back comes back again and again. -/
theorem not_ends_of_comesBack (h : DelayComesBack env st r) :
    ¬ ∃ fuel out, (delay env fuel r st).run = some out := by
  rw [← ends_iff, CallTree.ends_iff_acc]
  obtain ⟨a, b, ha, hab, hplace⟩ := h
  intro hacc
  have hpath : Relation.TransGen (CallTree.Calls (delayBody env)) (r, st) b :=
    .trans_right ha (transGen_calls hab)
  refine Reentry.not_acc_of_recurs (I := fun c ↦ c.1 = b.1 ∧ b.2.Later c.2) ?_
    ⟨rfl, Session.Later.refl b.2⟩ (hacc.inv_of_transGen (Relation.transGen_swap.mpr hpath))
  rintro ⟨c, st'⟩ ⟨rfl, hlater⟩
  obtain ⟨st'', hagain, hlater'⟩ := callsOn_again hab hlater
  rw [← hplace] at hagain
  exact ⟨(b.1, st''), transGen_calls hagain, rfl, hlater.trans hlater'⟩

open Classical in
/-- A call that does not come back comes to an end: every delayable makes its calls once. -/
theorem ends_of_not_comesBack (hfinite : FinitelyLinked st.heap r)
    (h : ¬ DelayComesBack env st r) : ∃ fuel out, (delay env fuel r st).run = some out := by
  rw [← ends_iff, CallTree.ends_iff_acc]
  let μ (q : DelayCall) : Nat :=
    ((Set.Finite.toFinset hfinite).filter fun x ↦ q.2.jobOf x = none).card
  have hsubset {q q' : DelayCall} (hcall : CallTree.Calls (delayBody env) q q') :
      (Set.Finite.toFinset hfinite).filter (fun x ↦ q'.2.jobOf x = none) ⊆
        (Set.Finite.toFinset hfinite).filter fun x ↦ q.2.jobOf x = none :=
    Finset.monotone_filter_right _ fun _ _ hx ↦ jobless_subset (callsFor_of_calls hcall).later hx
  have hplaces (q : DelayCall)
      (hq : Relation.ReflTransGen (CallTree.Calls (delayBody env)) (r, st) q) :
      q.1 ∈ Set.Finite.toFinset hfinite :=
    (Set.Finite.mem_toFinset hfinite).mpr (linked_of_calls hq).2
  refine Reentry.acc_of_not_comesBack (μ := μ) hplaces ?_ ?_ h
  · intro q q' _ hcall
    exact Finset.card_le_card (hsubset hcall)
  · intro q q' hq hcall hd
    obtain ⟨hnone, hsome⟩ := (callsFor_of_calls hcall).generated (not_not.mp hd)
    refine Finset.card_lt_card (Finset.ssubset_iff_subset_ne.mpr ⟨hsubset hcall, fun heq ↦ ?_⟩)
    have hmem : q.1 ∈ (Set.Finite.toFinset hfinite).filter fun x ↦ q.2.jobOf x = none :=
      Finset.mem_filter.mpr ⟨hplaces q hq, hnone⟩
    rw [← heq] at hmem
    rw [(Finset.mem_filter.mp hmem).2] at hsome
    cases hsome

/-- A link of a group or chain. -/
def CompoundLink (heap : Ref → Scheduler) (a b : Ref) : Prop :=
  ¬ (heap a).IsDelayable ∧ b ∈ (heap a).links

/-- A call comes back on a cycle of groups and chains alone. -/
theorem not_comesBack_of_acyclic
    (h : ∀ x, Relation.ReflTransGen (fun a b ↦ b ∈ (st.heap a).links) r x →
      ¬ Relation.TransGen (CompoundLink st.heap) x x) : ¬ DelayComesBack env st r := by
  intro hback
  have hedge (a b : DelayCall)
      (ha : Relation.ReflTransGen (CallTree.Calls (delayBody env)) (r, st) a)
      (hd : ¬ (a.2.heap a.1).IsDelayable) (hcall : CallTree.Calls (delayBody env) a b) :
      CompoundLink st.heap a.1 b.1 := by
    have hlater := (linked_of_calls ha).1
    exact ⟨mt (hlater.isDelayable a.1).mpr hd,
      hlater.links a.1 ▸ (callsFor_of_calls hcall).link⟩
  obtain ⟨a, ha, hcycle⟩ := hback.exists_cycle hedge
  exact h a.1 (linked_of_calls ha).2 hcycle

end Recursion

/-- `delay` comes to an end, with one call of `enqueue` for a delayable at most, exactly if it
never comes back to a group or chain through groups and chains alone. -/
theorem delayEnds_iff (env : DelayEnv) (st : Session) (r : Ref)
    (hfinite : FinitelyLinked st.heap r) :
    DelayEnds env st r ↔ ¬ DelayComesBack env st r :=
  ⟨fun h hback ↦ not_ends_of_comesBack hback h.ends,
    fun h ↦ ⟨ends_of_not_comesBack hfinite h, fun fuel ↦ nodup_enqueueCalls env fuel r st⟩⟩

/-! ### Cycles -/

/-- A delayable with a chain of itself as on_done callback. -/
def chainOfItself : Session where
  heap r :=
    if r = 0 then
      { cls := .delayable { modelName := "res.partner", jobMethod := some "ping" } {} none
        nextDelayables := [1] }
    else { cls := .chain [0] }
  store := .empty

/-- An empty group with itself as on_done callback. -/
def groupOfItself : Session where
  heap _ := { cls := .group [], nextDelayables := [0] }
  store := .empty

theorem finitelyLinked_of_subset {heap : Ref → Scheduler} {r : Ref} (refs : Finset Ref)
    (hr : r ∈ refs) (hlinks : ∀ a ∈ refs, ∀ b ∈ (heap a).links, b ∈ refs) :
    FinitelyLinked heap r := by
  refine refs.finite_toSet.subset fun x hx ↦ ?_
  induction hx with
  | refl => exact hr
  | tail _ h ih => exact hlinks _ ih _ h

/-- The cycle goes through a delayable. -/
theorem delayEnds_chainOfItself : DelayEnds {} chainOfItself 0 := by
  refine (delayEnds_iff {} chainOfItself 0
    (finitelyLinked_of_subset {0, 1} (by decide) (by decide))).mpr ?_
  refine not_comesBack_of_acyclic fun x _ hcycle ↦ ?_
  have hzero : (chainOfItself.heap 0).IsDelayable := by decide
  obtain ⟨y, ⟨hx, hy⟩, hpath⟩ := Relation.TransGen.head'_iff.mp hcycle
  have hne : x ≠ 0 := by
    rintro rfl
    exact hx hzero
  have hlinks : (chainOfItself.heap x).links = [0] := by
    simp only [chainOfItself, if_neg hne]
    rfl
  rw [hlinks, List.mem_singleton] at hy
  subst hy
  rcases Relation.ReflTransGen.cases_head hpath with heq | ⟨z, ⟨hz, _⟩, _⟩
  · exact hne heq.symm
  · exact hz hzero

/-- The cycle is one of groups alone. -/
theorem not_delayEnds_groupOfItself :
    FinitelyLinked groupOfItself.heap 0 ∧ ¬ DelayEnds {} groupOfItself 0 := by
  refine ⟨finitelyLinked_of_subset {0} (by decide) (by decide), fun h ↦ ?_⟩
  obtain ⟨st₁, hcall⟩ : ∃ st₁, CallTree.Calls (delayBody {}) (0, groupOfItself) (0, st₁) :=
    ⟨_, CallTree.Asks.here⟩
  exact not_ends_of_comesBack ⟨_, _, .refl, .single ⟨by decide, hcall⟩, rfl⟩ h.ends

end JobWorker
