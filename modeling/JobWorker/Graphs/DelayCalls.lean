import JobWorker.DelayTree
import JobWorker.Graphs.Sharing
import Mathlib.Logic.Relation

/-!
# Calls that are made again

A call of `delay` changes wiring, and gives jobs to delayables. A delayable with a job makes no
calls, whereas a group or chain makes the same calls whenever it is called
(`job_worker/delay.py:120–122,240,296`).
-/

namespace JobWorker

open Delaying

namespace Session

/-- The objects are what they were and link as they did, and delayables keep their jobs. -/
structure Later (st st' : Session) : Prop where
  shape : ∀ a, (st'.heap a).shape = (st.heap a).shape
  nextDelayables : ∀ a, (st'.heap a).nextDelayables = (st.heap a).nextDelayables
  onErrorDelayables : ∀ a, (st'.heap a).onErrorDelayables = (st.heap a).onErrorDelayables
  jobs : ∀ a j, st.jobOf a = some j → st'.jobOf a = some j

section Later

variable {st st₁ st' : Session} {r : Ref}

theorem Later.refl (st : Session) : st.Later st :=
  ⟨fun _ ↦ rfl, fun _ ↦ rfl, fun _ ↦ rfl, fun _ _ ↦ id⟩

theorem Later.trans (h : st.Later st₁) (h' : st₁.Later st') : st.Later st' where
  shape a := (h'.shape a).trans (h.shape a)
  nextDelayables a := (h'.nextDelayables a).trans (h.nextDelayables a)
  onErrorDelayables a := (h'.onErrorDelayables a).trans (h.onErrorDelayables a)
  jobs a j hj := h'.jobs a j (h.jobs a j hj)

theorem Later.links (h : st.Later st') (a : Ref) : (st'.heap a).links = (st.heap a).links :=
  links_of_shape (h.shape a) (h.nextDelayables a) (h.onErrorDelayables a)

theorem Later.isDelayable (h : st.Later st') (a : Ref) :
    (st'.heap a).IsDelayable ↔ (st.heap a).IsDelayable := isDelayable_of_shape (h.shape a)

theorem Later.isSome (h : st.Later st') {a : Ref} (ha : (st.jobOf a).isSome = true) :
    (st'.jobOf a).isSome = true := by
  obtain ⟨j, hj⟩ := Option.isSome_iff_exists.mp ha
  rw [h.jobs a j hj]
  rfl

/-- The same objects. -/
theorem later_of_heap (h : st'.heap = st.heap) : st.Later st' := by
  refine ⟨fun a ↦ ?_, fun a ↦ ?_, fun a ↦ ?_, fun a j hj ↦ ?_⟩
  · rw [h]
  · rw [h]
  · rw [h]
  · rwa [jobOf, h]

/-- An object that is assigned to keeps what it is, its links and its job. -/
theorem later_of_update {d : Scheduler} (hheap : st'.heap = Function.update st.heap r d)
    (hshape : d.shape = (st.heap r).shape)
    (hnext : d.nextDelayables = (st.heap r).nextDelayables)
    (herror : d.onErrorDelayables = (st.heap r).onErrorDelayables)
    (hjob : ∀ j, st.jobOf r = some j → st'.jobOf r = some j) : st.Later st' := by
  have hat (a : Ref) (ha : a ≠ r) : st'.heap a = st.heap a := by
    rw [hheap, Function.update_of_ne ha]
  have hself : st'.heap r = d := by rw [hheap, Function.update_self]
  refine ⟨fun a ↦ ?_, fun a ↦ ?_, fun a ↦ ?_, fun a j hj ↦ ?_⟩ <;> by_cases ha : a = r
  · rw [ha, hself, hshape]
  · rw [hat a ha]
  · rw [ha, hself, hnext]
  · rw [hat a ha]
  · rw [ha, hself, herror]
  · rw [hat a ha]
  · subst ha
    exact hjob j hj
  · rwa [jobOf_congr (hat a ha)]

/-- The session in which a loop calls `delay` of `r`. -/
abbrev wired (st : Session) (self : Ref) (wire : Wire) (previous : Option JobId) (first : Bool)
    (r : Ref) : Session :=
  { st with
    heap := Function.update st.heap r (wire (st.heap self) previous first (st.heap r)) }

theorem later_wired {wire : Wire} (hwire : KeepsLinks wire) (st : Session) (self : Ref)
    (previous : Option JobId) (first : Bool) (r : Ref) :
    st.Later (st.wired self wire previous first r) := by
  have hlinks := hwire (st.heap self) previous first (st.heap r)
  refine later_of_update rfl ?_ hlinks.nextDelayables hlinks.onErrorDelayables fun j hj ↦ ?_
  · rw [Scheduler.shape, hlinks.cls, Scheduler.shape]
  · have hheap : (st.wired self wire previous first r).heap r = _ := Function.update_self ..
    rw [jobOf] at hj ⊢
    rwa [hheap, hlinks.cls]

end Later

end Session

namespace Delaying

/-! ### What a call changes -/

/-- What an answer of `delay` says about the call. -/
structure AnswersTo (q : DelayCall) (a : Option JobId × Session) : Prop where
  later : q.2.Later a.2
  job : a.1.isSome = true ↔ (q.2.heap q.1).IsDelayable
  generated : (q.2.heap q.1).IsDelayable → (a.2.jobOf q.1).isSome = true

/-- What a call of `delay` says about a call that it makes. -/
structure CallsFor (q q' : DelayCall) : Prop where
  later : q.2.Later q'.2
  link : q'.1 ∈ (q.2.heap q.1).links
  generated : (q.2.heap q.1).IsDelayable → q.2.jobOf q.1 = none ∧ (q'.2.jobOf q.1).isSome = true

section Meets

variable {α : Type} {env : DelayEnv} {C : DelayCall → Prop}
  {R : DelayCall → Option JobId × Session → Prop} {st : Session} {self : Ref}

theorem meets_piece {m : Delaying α} {P : α × Session → Prop} (hm : m.Total)
    (hP : ∀ a st', Returns m st a st' → P (a, st')) : (hm.piece st).Meets C R P := by
  unfold Total.piece
  have hrun : (m st).run = some ((m st).run.get (hm st)) := (Option.some_get (hm st)).symm
  generalize (m st).run.get (hm st) = out at hrun ⊢
  rcases out with _ | ⟨a, st'⟩
  · trivial
  · exact hP a st' hrun

/-- The calls of a loop are for its objects, in later sessions. -/
theorem meets_visit {wire : Wire} {strict : Bool} {roots : List Ref} {previous : Option JobId}
    {first : Bool} (hwire : KeepsLinks wire)
    (hC : ∀ r ∈ roots, ∀ st', st.Later st' → C (r, st')) :
    (visitPiece self wire strict previous first roots st).Meets C AnswersTo
      fun p ↦ st.Later p.2 := by
  induction roots generalizing st previous first with
  | nil => exact .refl st
  | cons r roots ih =>
    have hwired := Session.later_wired hwire st self previous first r
    refine ⟨hC r List.mem_cons_self _ hwired, ?_⟩
    rintro ⟨job, st₁⟩ ha
    dsimp only
    split
    · trivial
    · have hlater : st.Later st₁ := hwired.trans ha.later
      have hrest : (visitPiece self wire strict job false roots st₁).Meets C AnswersTo
          fun p ↦ st₁.Later p.2 :=
        ih fun r' hr' st' h ↦ hC r' (List.mem_cons_of_mem _ hr') st' (hlater.trans h)
      exact hrest.bind fun p hp ↦ hlater.trans hp

/-- The callbacks. -/
theorem meets_callbacks {wire : Wire} {d : Scheduler} (hwire : KeepsLinks wire)
    (hC : ∀ r ∈ d.nextDelayables ++ d.onErrorDelayables, ∀ st', st.Later st' → C (r, st')) :
    (callbacksPiece self wire d st).Meets C AnswersTo fun p ↦ st.Later p.2 := by
  refine (meets_visit hwire fun r hr ↦ hC r (List.mem_append_left _ hr)).bind ?_
  rintro ⟨jobs, st₁⟩ h₁
  refine (meets_visit hwire.onError fun r hr st' h ↦
    hC r (List.mem_append_right _ hr) st' (h₁.trans h)).bind ?_
  exact fun p h₂ ↦ h₁.trans h₂

/-- The session behind `enqueue`. -/
theorem later_of_enqueueDelayable {call : DelayableCall} {properties : DelayableProperties}
    {graphUuid : Option Nat} {job : JobId} {st' : Session}
    (hcls : (st.heap self).cls = .delayable call properties none)
    (h : Returns (enqueueDelayable env self call properties graphUuid) st job st') :
    st.Later st' ∧ st'.jobOf self = some job := by
  obtain ⟨_, _, _, _, _, hheap⟩ := enqueueDelayable_enqueue h
  have hjob : st'.jobOf self = some job := by
    rw [Session.jobOf, hheap, Function.update_self]
  refine ⟨Session.later_of_update hheap ?_ rfl rfl fun j hj ↦ ?_, hjob⟩
  · rw [Scheduler.shape, Scheduler.shape, hcls]
  · rw [Session.jobOf, hcls] at hj
    cases hj

/-- `delay` of a delayable without a job. -/
theorem meets_delayablePiece {call : DelayableCall} {properties : DelayableProperties}
    (hcls : (st.heap self).cls = .delayable call properties none) :
    (delayablePiece env self call properties st).Meets (CallsFor (self, st)) AnswersTo
      (AnswersTo (self, st)) := by
  have hd : (st.heap self).IsDelayable := ⟨call, properties, none, hcls⟩
  have hnone : st.jobOf self = none := by rw [Session.jobOf, hcls]
  have hlinks : (st.heap self).links =
      (st.heap self).nextDelayables ++ (st.heap self).onErrorDelayables := by
    rw [Scheduler.links, hcls]
  refine CallTree.Meets.bind (P := fun p ↦ p.2.heap = st.heap)
    (meets_piece _ fun u st₁ h ↦ (eq_of_jobGraphUuid h).1) ?_
  rintro ⟨u, st₁⟩ h₁
  have hcls₁ : (st₁.heap self).cls = .delayable call properties none := by rw [h₁, hcls]
  refine CallTree.Meets.bind (P := fun p ↦ st.Later p.2 ∧ p.2.jobOf self = some p.1) ?_ ?_
  · have hpiece : ((total_enqueueDelayable env self call properties u).piece st₁).Meets
        (CallsFor (self, st)) AnswersTo
          fun p ↦ st.Later p.2 ∧ p.2.jobOf self = some p.1 := by
      refine meets_piece _ fun job st₂ h ↦ ?_
      obtain ⟨hlater, hjob⟩ := later_of_enqueueDelayable hcls₁ h
      exact ⟨(Session.later_of_heap h₁).trans hlater, hjob⟩
    unfold enqueuePiece
    dsimp only
    split
    · exact hpiece
    · exact hpiece
  rintro ⟨job, st₂⟩ ⟨h₂, hjob⟩
  have hwire : KeepsLinks (wireCallback u job) := fun _ _ _ _ ↦ ⟨rfl, rfl, rfl⟩
  refine (meets_callbacks hwire fun r hr st' h ↦ ?_).bind ?_
  · refine ⟨h₂.trans h, hlinks ▸ hr, fun _ ↦ ⟨hnone, ?_⟩⟩
    rw [h.jobs self job hjob]
    rfl
  rintro ⟨_, st₃⟩ h₃
  refine CallTree.Meets.bind (P := fun p ↦ p.2.heap = st₃.heap)
    (meets_piece _ fun _ st₄ h ↦ ?_) ?_
  · obtain ⟨out, hout, hheap⟩ := run_runWithoutDelay env job st₃
    exact hheap () st₄ (Option.some.inj (hout.symm.trans h))
  rintro ⟨_, st₄⟩ h₄
  have hlater := h₃.trans (Session.later_of_heap h₄)
  refine ⟨h₂.trans hlater, iff_of_true rfl hd, fun _ ↦ ?_⟩
  show (st₄.jobOf self).isSome = true
  rw [hlater.jobs self job hjob]
  rfl

/-- `delay` of a group or chain. -/
theorem meets_compoundPiece {delayables : List Ref} {wire : Nat → Wire} {strict : Bool}
    {after : Nat → List (Option JobId) → Wire} (hcls : (st.heap self).Comprises delayables)
    (hwire : ∀ u, KeepsLinks (wire u)) (hafter : ∀ u jobs, KeepsLinks (after u jobs)) :
    (compoundPiece self wire strict after delayables st).Meets (CallsFor (self, st)) AnswersTo
      (AnswersTo (self, st)) := by
  have hd : ¬ (st.heap self).IsDelayable := by
    rintro ⟨call, properties, job, h⟩
    rcases hcls with hcls | hcls <;> cases h.symm.trans hcls
  have hlinks : (st.heap self).links = delayables ++
      ((st.heap self).nextDelayables ++ (st.heap self).onErrorDelayables) := by
    rw [Scheduler.links]
    rcases hcls with hcls | hcls <;> rw [hcls]
  refine CallTree.Meets.bind (P := fun p ↦ p.2.heap = st.heap)
    (meets_piece _ fun u st₁ h ↦ (eq_of_graphUuidOf h).1) ?_
  rintro ⟨u, st₁⟩ h₁
  have hlater₁ := Session.later_of_heap h₁
  refine (meets_visit (hwire u) fun r hr st' h ↦ ?_).bind ?_
  · exact ⟨hlater₁.trans h, hlinks ▸ List.mem_append_left _ hr, fun h ↦ absurd h hd⟩
  rintro ⟨jobs, st₂⟩ h₂
  have hlater₂ : st.Later st₂ := hlater₁.trans h₂
  refine (meets_callbacks (hafter u jobs) fun r hr st' h ↦ ?_).bind ?_
  · refine ⟨hlater₂.trans h, ?_, fun h ↦ absurd h hd⟩
    rw [hlinks, ← hlater₂.nextDelayables self, ← hlater₂.onErrorDelayables self]
    exact List.mem_append_right _ hr
  rintro ⟨_, st₃⟩ h₃
  exact ⟨hlater₂.trans h₃, iff_of_false Bool.false_ne_true hd, fun h ↦ absurd h hd⟩

/-- What `delay` calls, and what it answers. -/
theorem meets_delayBody (env : DelayEnv) (q : DelayCall) :
    (delayBody env q).Meets (CallsFor q) AnswersTo (AnswersTo q) := by
  obtain ⟨self, st⟩ := q
  unfold delayBody
  dsimp only
  split
  · next call properties job hcls =>
    refine ⟨.refl st, iff_of_true rfl ⟨call, properties, some job, hcls⟩, fun _ ↦ ?_⟩
    show (st.jobOf self).isSome = true
    rw [Session.jobOf, hcls]
    rfl
  · next hcls => exact meets_delayablePiece hcls
  · next hcls =>
    exact meets_compoundPiece (.inl hcls) (fun _ _ _ _ _ ↦ ⟨rfl, rfl, rfl⟩)
      fun _ _ _ _ _ _ ↦ ⟨rfl, rfl, rfl⟩
  · next hcls =>
    exact meets_compoundPiece (.inr hcls) (fun _ _ _ _ _ ↦ ⟨rfl, rfl, rfl⟩)
      fun _ _ _ _ _ _ ↦ ⟨rfl, rfl, rfl⟩

end Meets

/-! ### Calls that are made again -/

section Again

variable {env : DelayEnv} {ans : DelayCall → Option JobId × Session → Prop} {self r : Ref}
  {wire wire' : Wire} {strict first : Bool} {previous : Option JobId}
  {roots : List Ref} {st st₁ st' : Session} {q : DelayCall}

theorem yields_visit_cons {p : List (Option JobId) × Session} :
    CallTree.Yields ans (visitPiece self wire strict previous first (r :: roots) st) p ↔
      ∃ job st₁ jobs st₂, ans (r, st.wired self wire previous first r) (job, st₁) ∧
        ¬ (strict = true ∧ job = none) ∧
        CallTree.Yields ans (visitPiece self wire strict job false roots st₁) (jobs, st₂) ∧
        p = (job :: jobs, st₂) := by
  constructor
  · intro h
    cases h with
    | ask ha h =>
      dsimp only at h
      split at h
      · cases h
      · next hjob =>
        obtain ⟨⟨jobs, st₂⟩, hrest, hp⟩ := CallTree.yields_bind.mp h
        cases hp
        exact ⟨_, _, jobs, st₂, ha, hjob, hrest, rfl⟩
  · rintro ⟨job, st₁, jobs, st₂, ha, hjob, hrest, rfl⟩
    refine .ask ha ?_
    dsimp only
    rw [if_neg hjob]
    exact CallTree.yields_bind.mpr ⟨_, hrest, .done⟩

theorem asks_visit_cons :
    CallTree.Asks ans (visitPiece self wire strict previous first (r :: roots) st) q ↔
      q = (r, st.wired self wire previous first r) ∨
        ∃ job st₁, ans (r, st.wired self wire previous first r) (job, st₁) ∧
          ¬ (strict = true ∧ job = none) ∧
          CallTree.Asks ans (visitPiece self wire strict job false roots st₁) q := by
  constructor
  · intro h
    cases h with
    | here => exact .inl rfl
    | later ha h =>
      dsimp only at h
      split at h
      · cases h
      · next hjob =>
        rcases CallTree.asks_bind.mp h with h | ⟨p, _, h⟩
        · exact .inr ⟨_, _, ha, hjob, h⟩
        · cases h
  · rintro (rfl | ⟨job, st₁, ha, hjob, h⟩)
    · exact .here
    · refine .later ha ?_
      dsimp only
      rw [if_neg hjob]
      exact CallTree.asks_bind.mpr (.inl h)

/-- Whatever is answered is answered again in every session behind the answer. -/
def GivenAgain (env : DelayEnv) (ans : DelayCall → Option JobId × Session → Prop) : Prop :=
  ∀ q a, ans q a → AnswersTo q a ∧ ∀ st', a.2.Later st' →
    ∃ a', CallTree.Answers (delayBody env) (q.1, st') a'

theorem answersTo_of_answers {a : Option JobId × Session}
    (h : CallTree.Answers (delayBody env) q a) : AnswersTo q a := h.meets (meets_delayBody env)

/-- An object that a loop has delayed is delayed again, with a job if it had one. -/
theorem exists_answer (previous' : Option JobId) (first' : Bool) (hans : GivenAgain env ans)
    (hwire' : KeepsLinks wire') {job : Option JobId}
    (ha : ans (r, st.wired self wire previous first r) (job, st₁)) (h : st₁.Later st') :
    ∃ job' st₁', CallTree.Answers (delayBody env)
      (r, st'.wired self wire' previous' first' r) (job', st₁') ∧ st'.Later st₁' ∧
        (job = none ↔ job' = none) := by
  obtain ⟨hto, hagain⟩ := hans _ _ ha
  have hwired := Session.later_wired hwire' st' self previous' first' r
  obtain ⟨⟨job', st₁'⟩, ha'⟩ := hagain _ (h.trans hwired)
  have hto' := answersTo_of_answers ha'
  refine ⟨job', st₁', ha', hwired.trans hto'.later, ?_⟩
  have hlater := (hto.later.trans h).trans hwired
  have hiff := hto.job.trans ((hlater.isDelayable r).symm.trans hto'.job.symm)
  rw [← Option.not_isSome_iff_eq_none, ← Option.not_isSome_iff_eq_none]
  exact not_congr hiff

theorem later_of_yields_visit (hans : GivenAgain env ans) (hwire : KeepsLinks wire)
    {jobs : List (Option JobId)}
    (h : CallTree.Yields ans (visitPiece self wire strict previous first roots st) (jobs, st₁)) :
    st.Later st₁ :=
  (meets_visit (C := fun _ ↦ True) hwire fun _ _ _ _ ↦ trivial).yields
    (fun q a ha ↦ (hans q a ha).1) h

theorem later_of_asks_visit (hans : GivenAgain env ans) (hwire : KeepsLinks wire)
    (h : CallTree.Asks ans (visitPiece self wire strict previous first roots st) (r, st₁)) :
    st.Later st₁ :=
  (meets_visit (C := fun q ↦ st.Later q.2) hwire fun _ _ _ ↦ id).asks
    (fun q a ha ↦ (hans q a ha).1) h

theorem later_of_yields_callbacks (hans : GivenAgain env ans) (hwire : KeepsLinks wire)
    {d : Scheduler} (h : CallTree.Yields ans (callbacksPiece self wire d st) ((), st₁)) :
    st.Later st₁ :=
  (meets_callbacks (C := fun _ ↦ True) hwire fun _ _ _ _ ↦ trivial).yields
    (fun q a ha ↦ (hans q a ha).1) h

theorem later_of_asks_callbacks (hans : GivenAgain env ans) (hwire : KeepsLinks wire)
    {d : Scheduler} (h : CallTree.Asks ans (callbacksPiece self wire d st) (r, st₁)) :
    st.Later st₁ :=
  (meets_callbacks (C := fun q ↦ st.Later q.2) hwire fun _ _ _ ↦ id).asks
    (fun q a ha ↦ (hans q a ha).1) h

/-- A loop that has come to its end does so again. -/
theorem yields_visit_again (previous' : Option JobId) (first' : Bool) (hans : GivenAgain env ans)
    (hwire : KeepsLinks wire) (hwire' : KeepsLinks wire') {jobs : List (Option JobId)}
    (h : CallTree.Yields ans (visitPiece self wire strict previous first roots st) (jobs, st₁))
    (hlater : st₁.Later st') : ∃ jobs' st₁', CallTree.Yields (CallTree.Answers (delayBody env))
      (visitPiece self wire' strict previous' first' roots st') (jobs', st₁') ∧
        st'.Later st₁' := by
  induction roots generalizing st previous first st' previous' first' jobs with
  | nil => exact ⟨[], st', .done, .refl st'⟩
  | cons r roots ih =>
    obtain ⟨job, st₂, jobs, st₃, ha, hjob, hrest, heq⟩ := yields_visit_cons.mp h
    cases heq
    have h₂ := later_of_yields_visit hans hwire hrest
    obtain ⟨job', st₂', ha', hlater', hnone⟩ :=
      exists_answer previous' first' hans hwire' ha (h₂.trans hlater)
    obtain ⟨jobs', st₃', hrest', h₃⟩ := ih job' false hrest (hlater.trans hlater')
    exact ⟨job' :: jobs', st₃', yields_visit_cons.mpr
      ⟨job', st₂', jobs', st₃', ha', by rwa [← hnone], hrest', rfl⟩, hlater'.trans h₃⟩

/-- What a loop has called is called again. -/
theorem asks_visit_again (previous' : Option JobId) (first' : Bool) (hans : GivenAgain env ans)
    (hwire : KeepsLinks wire) (hwire' : KeepsLinks wire')
    (h : CallTree.Asks ans (visitPiece self wire strict previous first roots st) (r, st₁))
    (hlater : st₁.Later st') : ∃ st₁', CallTree.Asks (CallTree.Answers (delayBody env))
      (visitPiece self wire' strict previous' first' roots st') (r, st₁') ∧ st'.Later st₁' := by
  induction roots generalizing st previous first st' previous' first' with
  | nil => cases h
  | cons r' roots ih =>
    rcases asks_visit_cons.mp h with heq | ⟨job, st₂, ha, hjob, hrest⟩
    · cases heq
      exact ⟨_, asks_visit_cons.mpr (.inl rfl), Session.later_wired hwire' ..⟩
    · have h₂ := later_of_asks_visit hans hwire hrest
      obtain ⟨job', st₂', ha', hlater', hnone⟩ :=
        exists_answer previous' first' hans hwire' ha (h₂.trans hlater)
      obtain ⟨st₁', hrest', h₁⟩ := ih job' false hrest (hlater.trans hlater')
      exact ⟨st₁', asks_visit_cons.mpr (.inr ⟨job', st₂', ha', by rwa [← hnone], hrest'⟩),
        hlater'.trans h₁⟩

theorem yields_piece {α : Type} {m : Delaying α} (hm : m.Total) {p : α × Session} :
    CallTree.Yields ans (hm.piece st) p ↔ Returns m st p.1 p.2 := by
  have hrun : (m st).run = some ((m st).run.get (hm st)) := (Option.some_get (hm st)).symm
  unfold Total.piece Returns
  generalize (m st).run.get (hm st) = out at hrun ⊢
  rw [hrun, Option.some.injEq]
  constructor
  · rintro ⟨⟩
    rfl
  · rintro rfl
    exact .done

theorem not_asks_piece {α : Type} {m : Delaying α} (hm : m.Total) :
    ¬ CallTree.Asks ans (hm.piece st) q := nofun

theorem yields_callbacks {d : Scheduler} {p : Unit × Session} :
    CallTree.Yields ans (callbacksPiece self wire d st) p ↔ ∃ jobs st₁ jobs',
      CallTree.Yields ans (visitPiece self wire false none true d.nextDelayables st) (jobs, st₁) ∧
      CallTree.Yields ans (visitPiece self wire.onError false none true d.onErrorDelayables st₁)
        (jobs', p.2) := by
  constructor
  · intro h
    obtain ⟨⟨jobs, st₁⟩, hnext, h⟩ := CallTree.yields_bind.mp h
    obtain ⟨⟨jobs', st₂⟩, herror, h⟩ := CallTree.yields_bind.mp h
    cases h
    exact ⟨jobs, st₁, jobs', hnext, herror⟩
  · rintro ⟨jobs, st₁, jobs', hnext, herror⟩
    exact CallTree.yields_bind.mpr ⟨_, hnext, CallTree.yields_bind.mpr ⟨_, herror, .done⟩⟩

theorem asks_callbacks {d : Scheduler} : CallTree.Asks ans (callbacksPiece self wire d st) q ↔
    CallTree.Asks ans (visitPiece self wire false none true d.nextDelayables st) q ∨ ∃ jobs st₁,
      CallTree.Yields ans (visitPiece self wire false none true d.nextDelayables st) (jobs, st₁) ∧
      CallTree.Asks ans (visitPiece self wire.onError false none true d.onErrorDelayables st₁)
        q := by
  refine CallTree.asks_bind.trans (or_congr_right ⟨?_, ?_⟩)
  · rintro ⟨⟨jobs, st₁⟩, hnext, h⟩
    rcases CallTree.asks_bind.mp h with herror | ⟨_, _, h⟩
    · exact ⟨jobs, st₁, hnext, herror⟩
    · cases h
  · rintro ⟨jobs, st₁, hnext, herror⟩
    exact ⟨_, hnext, CallTree.asks_bind.mpr (.inl herror)⟩

/-- Callbacks that have come to their end do so again. -/
theorem yields_callbacks_again (hans : GivenAgain env ans) (hwire : KeepsLinks wire)
    (hwire' : KeepsLinks wire') {d d' : Scheduler}
    (hnext : d'.nextDelayables = d.nextDelayables)
    (herror : d'.onErrorDelayables = d.onErrorDelayables)
    (h : CallTree.Yields ans (callbacksPiece self wire d st) ((), st₁)) (hlater : st₁.Later st') :
    ∃ st₁', CallTree.Yields (CallTree.Answers (delayBody env)) (callbacksPiece self wire' d' st')
      ((), st₁') := by
  obtain ⟨jobs, st₂, jobs', h₂, h₁⟩ := yields_callbacks.mp h
  have hlater₁ := later_of_yields_visit hans hwire.onError h₁
  obtain ⟨jobs₂, st₂', h₂', hlater₂⟩ :=
    yields_visit_again none true hans hwire hwire' h₂ (hlater₁.trans hlater)
  obtain ⟨jobs₁, st₁', h₁', _⟩ :=
    yields_visit_again none true hans hwire.onError hwire'.onError h₁ (hlater.trans hlater₂)
  exact ⟨st₁', yields_callbacks.mpr ⟨jobs₂, st₂', jobs₁, hnext ▸ h₂', herror ▸ h₁'⟩⟩

/-- What callbacks have called is called again. -/
theorem asks_callbacks_again (hans : GivenAgain env ans) (hwire : KeepsLinks wire)
    (hwire' : KeepsLinks wire') {d d' : Scheduler}
    (hnext : d'.nextDelayables = d.nextDelayables)
    (herror : d'.onErrorDelayables = d.onErrorDelayables)
    (h : CallTree.Asks ans (callbacksPiece self wire d st) (r, st₁)) (hlater : st₁.Later st') :
    ∃ st₁', CallTree.Asks (CallTree.Answers (delayBody env)) (callbacksPiece self wire' d' st')
      (r, st₁') ∧ st'.Later st₁' := by
  rcases asks_callbacks.mp h with h | ⟨jobs, st₂, h₂, h₁⟩
  · obtain ⟨st₁', h', hlater'⟩ := asks_visit_again none true hans hwire hwire' h hlater
    exact ⟨st₁', asks_callbacks.mpr (.inl (hnext ▸ h')), hlater'⟩
  · have hlater₁ := later_of_asks_visit hans hwire.onError h₁
    obtain ⟨jobs₂, st₂', h₂', hlater₂⟩ :=
      yields_visit_again none true hans hwire hwire' h₂ (hlater₁.trans hlater)
    obtain ⟨st₁', h₁', hlater'⟩ :=
      asks_visit_again none true hans hwire.onError hwire'.onError h₁ (hlater.trans hlater₂)
    exact ⟨st₁', asks_callbacks.mpr (.inr ⟨jobs₂, st₂', hnext ▸ h₂', herror ▸ h₁'⟩),
      hlater₂.trans hlater'⟩

/-- A call of a group or chain in the making: wiring that assigns no more than that, and its
members. -/
structure CompoundCall (env : DelayEnv) (x : Ref) (st : Session) where
  wire : Nat → Wire
  strict : Bool
  after : Nat → List (Option JobId) → Wire
  delayables : List Ref
  keepsLinks : ∀ u, KeepsLinks (wire u)
  keepsLinks_after : ∀ u jobs, KeepsLinks (after u jobs)
  body : ∀ st', st.Later st' →
    delayBody env (x, st') = compoundPiece x wire strict after delayables st'

/-- What is no delayable is called as a group or chain. -/
theorem exists_compoundCall (env : DelayEnv) (hself : ¬ (st.heap self).IsDelayable) :
    Nonempty (CompoundCall env self st) := by
  cases hcls : (st.heap self).cls with
  | delayable call properties job => exact absurd ⟨call, properties, job, hcls⟩ hself
  | group delayables =>
    refine ⟨⟨fun u g _ _ ↦ wireMember u g, true, fun u jobs _ _ _ ↦ wireNext u jobs.reduceOption,
      delayables, fun _ _ _ _ _ ↦ ⟨rfl, rfl, rfl⟩, fun _ _ _ _ _ _ ↦ ⟨rfl, rfl, rfl⟩,
      fun st' h ↦ ?_⟩⟩
    simp only [delayBody, (group_of_shape (h.shape self) delayables).mpr hcls]
  | chain delayables =>
    refine ⟨⟨fun u g previous first ↦ wireStep u previous first g, false,
      fun u jobs ↦ wireAfterChain u (jobs.getLast?.getD none), delayables,
      fun _ _ _ _ _ ↦ ⟨rfl, rfl, rfl⟩, fun _ _ _ _ _ _ ↦ ⟨rfl, rfl, rfl⟩,
      fun st' h ↦ ?_⟩⟩
    simp only [delayBody, (chain_of_shape (h.shape self) delayables).mpr hcls]

theorem exists_graphUuidOf (self : Ref) (st : Session) :
    ∃ u st', Returns (graphUuidOf self) st u st' := by
  cases h : (st.heap self).graphUuid with
  | none =>
    refine ⟨st.nextUuid, { st with nextUuid := st.nextUuid + 1 },
      returns_bind.mpr ⟨_, _, rfl, ?_⟩⟩
    rw [h]
    rfl
  | some u =>
    refine ⟨u, st, returns_bind.mpr ⟨_, _, rfl, ?_⟩⟩
    rw [h]
    rfl

/-- A group or chain that has returned does so again. -/
theorem yields_compound_again (hans : GivenAgain env ans) (c : CompoundCall env self st)
    {a : Option JobId × Session} (h : CallTree.Yields ans (delayBody env (self, st)) a)
    (hlater : a.2.Later st') : ∃ a', CallTree.Answers (delayBody env) (self, st') a' := by
  have hto := (meets_delayBody env (self, st)).yields (fun q a ha ↦ (hans q a ha).1) h
  rw [c.body st (.refl st)] at h
  obtain ⟨⟨u, st₁⟩, hu, h⟩ := CallTree.yields_bind.mp h
  obtain ⟨⟨jobs, st₂⟩, hmembers, h⟩ := CallTree.yields_bind.mp h
  obtain ⟨⟨_, st₃⟩, hcallbacks, h⟩ := CallTree.yields_bind.mp h
  cases h
  have hlater₂ := later_of_yields_callbacks hans (c.keepsLinks_after u jobs) hcallbacks
  obtain ⟨u', st₁', hu'⟩ := exists_graphUuidOf self st'
  have hlater₁ : st'.Later st₁' := Session.later_of_heap (eq_of_graphUuidOf hu').1
  obtain ⟨jobs', st₂', hmembers', hlater₂'⟩ := yields_visit_again none true hans
    (c.keepsLinks u) (c.keepsLinks u') hmembers ((hlater₂.trans hlater).trans hlater₁)
  have hself : st₂.Later st₂' := ((hlater₂.trans hlater).trans hlater₁).trans hlater₂'
  obtain ⟨st₃', hcallbacks'⟩ := yields_callbacks_again hans (c.keepsLinks_after u jobs)
    (c.keepsLinks_after u' jobs') (hself.nextDelayables self) (hself.onErrorDelayables self)
    hcallbacks ((hlater.trans hlater₁).trans hlater₂')
  refine ⟨(none, st₃'), CallTree.answers_iff_yields.mpr ?_⟩
  rw [c.body st' (hto.later.trans hlater)]
  exact CallTree.yields_bind.mpr ⟨(u', st₁'), (yields_piece _).mpr hu', CallTree.yields_bind.mpr
    ⟨(jobs', st₂'), hmembers', CallTree.yields_bind.mpr ⟨((), st₃'), hcallbacks', .done⟩⟩⟩

/-- What a group or chain has called it calls again. -/
theorem asks_compound_again (hans : GivenAgain env ans) (c : CompoundCall env self st)
    (h : CallTree.Asks ans (delayBody env (self, st)) (r, st₁)) (hlater : st₁.Later st') :
    ∃ st₁', CallTree.Calls (delayBody env) (self, st') (r, st₁') ∧ st'.Later st₁' := by
  have hfor := (meets_delayBody env (self, st)).asks (fun q a ha ↦ (hans q a ha).1) h
  rw [c.body st (.refl st)] at h
  obtain ⟨u', st₂', hu'⟩ := exists_graphUuidOf self st'
  have hlater₂' : st'.Later st₂' := Session.later_of_heap (eq_of_graphUuidOf hu').1
  unfold CallTree.Calls
  rw [c.body st' (hfor.later.trans hlater)]
  rcases CallTree.asks_bind.mp h with h | ⟨⟨u, st₂⟩, hu, h⟩
  · exact absurd h (not_asks_piece _)
  rcases CallTree.asks_bind.mp h with h | ⟨⟨jobs, st₃⟩, hmembers, h⟩
  · obtain ⟨st₁', h', hlater'⟩ := asks_visit_again none true hans (c.keepsLinks u)
      (c.keepsLinks u') h (hlater.trans hlater₂')
    exact ⟨st₁', CallTree.asks_bind.mpr (.inr ⟨(u', st₂'), (yields_piece _).mpr hu',
      CallTree.asks_bind.mpr (.inl h')⟩), hlater₂'.trans hlater'⟩
  rcases CallTree.asks_bind.mp h with h | ⟨_, _, h⟩
  · have hlater₃ := later_of_asks_callbacks hans (c.keepsLinks_after u jobs) h
    obtain ⟨jobs', st₃', hmembers', hlater₃'⟩ := yields_visit_again none true hans
      (c.keepsLinks u) (c.keepsLinks u') hmembers ((hlater₃.trans hlater).trans hlater₂')
    have hself : st₃.Later st₃' := ((hlater₃.trans hlater).trans hlater₂').trans hlater₃'
    obtain ⟨st₁', h', hlater'⟩ := asks_callbacks_again hans (c.keepsLinks_after u jobs)
      (c.keepsLinks_after u' jobs') (hself.nextDelayables self) (hself.onErrorDelayables self) h
      ((hlater.trans hlater₂').trans hlater₃')
    exact ⟨st₁', CallTree.asks_bind.mpr (.inr ⟨(u', st₂'), (yields_piece _).mpr hu',
      CallTree.asks_bind.mpr (.inr ⟨(jobs', st₃'), hmembers', CallTree.asks_bind.mpr (.inl h')⟩)⟩),
      (hlater₂'.trans hlater₃').trans hlater'⟩
  · cases h

/-- What `delay` has answered it answers again, by induction on the depth. -/
theorem givenAgain (env : DelayEnv) : GivenAgain env (CallTree.Answers (delayBody env)) := by
  have hdepth (fuel : Nat) : GivenAgain env fun q a ↦
      ∃ notes, CallTree.recurse (delayBody env) fuel q = (notes, some (.ok a)) := by
    induction fuel with
    | zero =>
      rintro q a ⟨notes, h⟩
      cases h
    | succ fuel ih =>
      rintro ⟨self, st⟩ a ⟨notes, h⟩
      have hyields : CallTree.Yields (fun q a ↦
          ∃ notes, CallTree.recurse (delayBody env) fuel q = (notes, some (.ok a)))
            (delayBody env (self, st)) a :=
        CallTree.yields_of_eval (fun q notes a hq ↦ ⟨notes, hq⟩) h
      have hto : AnswersTo (self, st) a := answersTo_of_answers ⟨_, notes, h⟩
      refine ⟨hto, fun st' hlater ↦ ?_⟩
      by_cases hself : (st.heap self).IsDelayable
      · have hsome := hlater.isSome (hto.generated hself)
        obtain ⟨call, properties, job, hcls⟩ :=
          ((hto.later.trans hlater).isDelayable self).mpr hself
        rw [Session.jobOf, hcls] at hsome
        obtain ⟨j, rfl⟩ := Option.isSome_iff_exists.mp hsome
        refine ⟨(some j, st'), CallTree.answers_iff_yields.mpr ?_⟩
        simp only [delayBody, hcls]
        exact .done
      · obtain ⟨c⟩ := exists_compoundCall env hself
        exact yields_compound_again ih c hyields hlater
  rintro q a ⟨fuel, notes, h⟩
  exact hdepth fuel q a ⟨notes, h⟩

/-- A call that a group or chain makes. -/
def CallsOn (env : DelayEnv) (q q' : DelayCall) : Prop :=
  ¬ (q.2.heap q.1).IsDelayable ∧ CallTree.Calls (delayBody env) q q'

theorem callsFor_of_calls {q' : DelayCall} (h : CallTree.Calls (delayBody env) q q') :
    CallsFor q q' := h.meets (meets_delayBody env)

theorem transGen_calls {q' : DelayCall} (h : Relation.TransGen (CallsOn env) q q') :
    Relation.TransGen (CallTree.Calls (delayBody env)) q q' :=
  Relation.TransGen.mono (fun _ _ h ↦ h.2) q q' h

/-- What groups and chains have called through each other they call again. -/
theorem callsOn_again {q' : DelayCall} (h : Relation.TransGen (CallsOn env) q q') {st' : Session}
    (hlater : q'.2.Later st') :
    ∃ st'', Relation.TransGen (CallsOn env) (q.1, st') (q'.1, st'') ∧ st'.Later st'' := by
  have hstep {q q' : DelayCall} (h : CallsOn env q q') {st' : Session}
      (hlater : q'.2.Later st') : ∃ st'', CallsOn env (q.1, st') (q'.1, st'') ∧
        st'.Later st'' := by
    obtain ⟨c⟩ := exists_compoundCall env h.1
    obtain ⟨st'', hcall, hlater'⟩ := asks_compound_again (givenAgain env) c h.2 hlater
    refine ⟨st'', ⟨fun hd ↦ h.1 ?_, hcall⟩, hlater'⟩
    exact (((callsFor_of_calls h.2).later.trans hlater).isDelayable q.1).mp hd
  induction h with
  | single h =>
    obtain ⟨st'', hcall, hlater'⟩ := hstep h hlater
    exact ⟨st'', .single hcall, hlater'⟩
  | tail _ h ih =>
    obtain ⟨st₁, hpath, hlater₁⟩ := ih ((callsFor_of_calls h.2).later.trans hlater)
    obtain ⟨st'', hcall, hlater'⟩ := hstep h (hlater.trans hlater₁)
    exact ⟨st'', hpath.tail hcall, hlater₁.trans hlater'⟩

end Again

end Delaying

end JobWorker
