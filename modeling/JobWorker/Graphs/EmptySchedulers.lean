import JobWorker.Graphs.Order

/-!
# Empty groups and chains

An empty group or chain has no job, so what is attached to it should wait for what it waits
for itself. But an empty group hands on an empty list of dependencies and an empty chain no
parent (`job_worker/delay.py:261–269,320–331`), and `enqueue` starts a job without
prerequisites as `pending` (`models/queue_job.py:1016–1034`).
-/

namespace JobWorker

open Delaying World

/-- A group or chain without delayables. -/
def Scheduler.IsEmpty (d : Scheduler) : Prop := d.Comprises []

/-- What the callbacks of a scheduler wait for. -/
inductive Prerequisite
  | start
  | done (p : Ref)
  | failed (p : Ref)
  | never
  deriving DecidableEq

namespace Prerequisite

/-- The failure of what is waited for. -/
def onError : Prerequisite → Prerequisite
  | start | never => never
  | done p | failed p => failed p

/-- What is waited for has happened. -/
def Holds (st : Session) (s : Store) : Prerequisite → Prop
  | start => True
  | done p => ∀ q ∈ st.jobsOf p, s.stateOf q = some .done
  | failed p => ∃ q ∈ st.jobsOf p, s.stateOf q = some .failed
  | never => False

end Prerequisite

/-- What the root and the callbacks of a tree wait for when empty groups and chains hand on
what they wait for themselves. -/
inductive Attached (heap : Ref → Scheduler) (root : Ref) (refs : List Ref) :
    Ref → Prerequisite → Prop
  | root : Attached heap root refs root .start
  | next {p x : Ref} : p ∈ refs → ¬ (heap p).IsEmpty → x ∈ (heap p).nextDelayables →
      Attached heap root refs x (.done p)
  | error {p x : Ref} : p ∈ refs → ¬ (heap p).IsEmpty → x ∈ (heap p).onErrorDelayables →
      Attached heap root refs x (.failed p)
  | emptyNext {e x : Ref} {u : Prerequisite} : e ∈ refs → (heap e).IsEmpty →
      Attached heap root refs e u → x ∈ (heap e).nextDelayables → Attached heap root refs x u
  | emptyError {e x : Ref} {u : Prerequisite} : e ∈ refs → (heap e).IsEmpty →
      Attached heap root refs e u → x ∈ (heap e).onErrorDelayables →
      Attached heap root refs x u.onError

/-- The jobs of a scheduler that take over its wiring. -/
def Session.entriesOf (st : Session) (r : Ref) : List JobId :=
  match (st.heap r).cls with
  | .delayable _ _ job => job.toList
  | .group delayables => delayables.filterMap st.jobOf
  | .chain delayables => delayables.head?.toList.filterMap st.jobOf

/-- The callbacks of every empty group or chain wait for what it waits for itself, in every
run of the workers. -/
def EmptiesKeepEdges (st st' : Session) (root : Ref) (refs : List Ref) : Prop :=
  ∀ e ∈ refs, (st.heap e).IsEmpty → ∀ u, Attached st.heap root refs e u →
    (∀ x ∈ (st.heap e).nextDelayables, ∀ j ∈ st'.jobsOf x, ∀ w w' : World,
      w.store = st'.store → WorkerRun w w' → w'.store.Released j → u.Holds st' w'.store) ∧
    (∀ x ∈ (st.heap e).onErrorDelayables, ∀ j ∈ st'.jobsOf x, ∀ w w' : World,
      w.store = st'.store → WorkerRun w w' → w'.store.Released j →
        u.onError.Holds st' w'.store) ∧
    (u = .start → ∀ x ∈ (st.heap e).nextDelayables, ∀ j ∈ st'.entriesOf x,
      st'.store.stateOf j = some .pending)

/-- The callbacks of empty groups and chains are empty themselves, but for on_done callbacks
of the ones that wait for nothing. -/
def OnlyAtStart (st : Session) (root : Ref) (refs : List Ref) : Prop :=
  ∀ e ∈ refs, (st.heap e).IsEmpty → ∀ u, Attached st.heap root refs e u →
    (∀ x ∈ (st.heap e).nextDelayables, (st.heap x).IsEmpty ∨ u = .start) ∧
    ∀ x ∈ (st.heap e).onErrorDelayables, (st.heap x).IsEmpty

section Empty

variable {env : DelayEnv} {st st' : Session} {root e x : Ref} {refs : List Ref} {j : JobId}

/-- An empty scheduler has no prerequisites to hand on. -/
theorem not_waitsOn_of_isEmpty (h : (st.heap e).IsEmpty) (q : JobId) :
    ¬ (st.prerequisites e).WaitsOn q := by
  unfold Session.prerequisites
  rcases h with h | h <;> rw [h] <;> rintro (hq | hq) <;> cases hq

/-- A row without prerequisites is pending. -/
theorem pending_of_enqueued {c : Context} {row : Job} (h : Enqueued c row)
    (hnone : ∀ q, ¬ c.WaitsOn q) : row.state = .pending := by
  rw [h.state, if_neg]
  rintro (hp | hd)
  · cases hparent : c.parentJobId with
    | none => rw [hparent] at hp; cases hp
    | some q => exact hnone q (.inl hparent)
  · obtain ⟨q, rest, hq⟩ := List.exists_cons_of_ne_nil hd
    exact hnone q (.inr (hq ▸ List.mem_cons_self))

/-- A scheduler with a job is not empty. -/
theorem not_isEmpty_of_job (h : j ∈ st.jobsOf x) : ¬ (st.heap x).IsEmpty := by
  unfold Session.jobsOf at h
  rintro (hx | hx) <;> rw [hx] at h <;> cases h

/-- The jobs of a scheduler are those of objects of the tree. -/
theorem Compiles.exists_of_job (hcomp : Compiles refs st st') (hx : x ∈ refs)
    (hj : j ∈ st'.jobsOf x) : ∃ a ∈ refs, st'.jobOf a = some j := by
  unfold Session.jobsOf at hj
  cases hcls : (st'.heap x).cls with
  | delayable call properties job =>
    rw [hcls] at hj
    exact ⟨x, hx, by rw [Session.jobOf, hcls]; exact Option.mem_toList.mp hj⟩
  | group delayables =>
    rw [hcls] at hj
    obtain ⟨a, ha, hja⟩ := List.mem_filterMap.mp hj
    exact ⟨a, hcomp.mem_of_comprises hx (.inl hcls) ha, hja⟩
  | chain delayables =>
    rw [hcls] at hj
    obtain ⟨a, ha, hja⟩ := List.mem_filterMap.mp hj
    exact ⟨a, hcomp.mem_of_comprises hx (.inr hcls) ha, hja⟩

/-- A new job has recorded no outcome. -/
theorem Compiles.no_outcome (hcomp : Compiles refs st st') (hx : x ∈ refs)
    (hj : j ∈ st'.jobsOf x) : st'.store.stateOf j ≠ some .done ∧
      st'.store.stateOf j ≠ some .failed := by
  obtain ⟨a, ha, hja⟩ := hcomp.exists_of_job hx hj
  obtain ⟨i, row, hi, hrow, hcols⟩ := hcomp.job ha (isDelayable_of_jobOf hja)
  obtain rfl := Option.some.inj (hja.symm.trans hi)
  rw [Store.stateOf_of_get? hrow, hcols.state]
  split <;> exact ⟨nofun, nofun⟩

/-- The jobs that take over the wiring of a scheduler are among its jobs. -/
theorem mem_jobsOf_of_entry (h : j ∈ st.entriesOf x) : j ∈ st.jobsOf x := by
  unfold Session.entriesOf at h
  unfold Session.jobsOf
  cases hcls : (st.heap x).cls with
  | delayable | group =>
    rw [hcls] at h
    exact h
  | chain delayables =>
    rw [hcls] at h
    obtain ⟨a, ha, hja⟩ := List.mem_filterMap.mp h
    exact List.mem_filterMap.mpr ⟨a, List.mem_of_head? (Option.mem_toList.mp ha), hja⟩

/-- The rows of these jobs carry the wiring of the scheduler, but for the graph. -/
theorem Compiles.entry (hcomp : Compiles refs st st') (hx : x ∈ refs)
    (hj : j ∈ st'.entriesOf x) : ∃ u row, st'.store.get? j = some row ∧
      Enqueued { (st'.heap x).context with graphUuid := u } row := by
  have hrow {a : Ref} {u : Option Nat} (ha : a ∈ refs) (hja : st'.jobOf a = some j)
      (hu : (st'.heap a).context = { (st'.heap x).context with graphUuid := u }) :
      ∃ u row, st'.store.get? j = some row ∧
        Enqueued { (st'.heap x).context with graphUuid := u } row := by
    obtain ⟨i, row, hi, hrow, hcols⟩ := hcomp.job ha (isDelayable_of_jobOf hja)
    obtain rfl := Option.some.inj (hja.symm.trans hi)
    exact ⟨u, row, hrow, hu ▸ hcols⟩
  unfold Session.entriesOf at hj
  cases hcls : (st'.heap x).cls with
  | delayable call properties job =>
    rw [hcls] at hj
    exact hrow hx (by rw [Session.jobOf, hcls]; exact Option.mem_toList.mp hj) rfl
  | group delayables =>
    rw [hcls] at hj
    obtain ⟨a, ha, hja⟩ := List.mem_filterMap.mp hj
    obtain ⟨u, hu⟩ := hcomp.members hx hcls
    exact hrow (hcomp.mem_of_comprises hx (.inl hcls) ha) hja (hu a ha)
  | chain delayables =>
    rw [hcls] at hj
    obtain ⟨a, ha, hja⟩ := List.mem_filterMap.mp hj
    have hhead := Option.mem_toList.mp ha
    obtain ⟨u, hu, _⟩ := hcomp.steps hx hcls
    exact hrow (hcomp.mem_of_comprises hx (.inr hcls) (List.mem_of_head? hhead)) hja (hu a hhead)

/-- A scheduler that is not empty has such a job. -/
theorem DelayedTree.exists_entry (h : DelayedTree env st root refs st') (hx : x ∈ refs)
    (hne : ¬ (st.heap x).IsEmpty) : ∃ j, j ∈ st'.entriesOf x := by
  have hcomp := h.compiles.1
  have hparts {delayables : List Ref} (hcls : (st'.heap x).Comprises delayables) :
      ∃ a rest, delayables = a :: rest := by
    refine List.exists_cons_of_ne_nil fun hnil ↦ hne ?_
    rw [hnil] at hcls
    exact (comprises_of_shape (hcomp.shape x) []).mp hcls
  unfold Session.entriesOf
  cases hcls : (st'.heap x).cls with
  | delayable call properties job =>
    obtain ⟨j, _, hj, _⟩ := hcomp.job hx ⟨call, properties, job, hcls⟩
    rw [Session.jobOf, hcls] at hj
    exact ⟨j, Option.mem_toList.mpr hj⟩
  | group delayables =>
    obtain ⟨a, rest, rfl⟩ := hparts (.inl hcls)
    obtain ⟨j, hj⟩ := h.member_job hx (.inl hcls) List.mem_cons_self
    exact ⟨j, List.mem_filterMap.mpr ⟨a, List.mem_cons_self, hj⟩⟩
  | chain delayables =>
    obtain ⟨a, rest, rfl⟩ := hparts (.inr hcls)
    obtain ⟨j, hj⟩ := h.member_job hx (.inr hcls) List.mem_cons_self
    exact ⟨j, List.mem_filterMap.mpr ⟨a, List.mem_singleton_self a, hj⟩⟩

/-- Behind an empty scheduler the first jobs are pending at once. -/
theorem DelayedTree.pending_behind_empty (h : DelayedTree env st root refs st') (he : e ∈ refs)
    (hempty : (st.heap e).IsEmpty)
    (hx : x ∈ (st.heap e).nextDelayables ∨ x ∈ (st.heap e).onErrorDelayables)
    (hj : j ∈ st'.entriesOf x) : st'.store.stateOf j = some .pending := by
  have hcomp := h.compiles.1
  obtain ⟨u, hnext, herror⟩ := hcomp.callbacksWired he
  have hnone (q : JobId) : ¬ (st'.prerequisites e).WaitsOn q :=
    not_waitsOn_of_isEmpty ((comprises_of_shape (hcomp.shape e) []).mpr hempty) q
  have hcontext (q : JobId) : ¬ (st'.heap x).context.WaitsOn q := by
    rcases hx with hx | hx
    · rw [hnext x (hcomp.nextDelayables e ▸ hx)]
      exact hnone q
    · rw [herror x (hcomp.onErrorDelayables e ▸ hx)]
      exact hnone q
  obtain ⟨v, row, hrow, hcols⟩ := hcomp.entry (hcomp.mem_of_callback he hx) hj
  rw [Store.stateOf_of_get? hrow, pending_of_enqueued hcols hcontext]

/-- What is waited for lies in the tree and is not empty. -/
theorem Attached.source {heap : Ref → Scheduler} {u : Prerequisite}
    (h : Attached heap root refs x u) {p : Ref} (hu : u = .done p ∨ u = .failed p) :
    p ∈ refs ∧ ¬ (heap p).IsEmpty := by
  induction h generalizing p with
  | root => rcases hu with hu | hu <;> cases hu
  | next hp hne | error hp hne =>
    rcases hu with hu | hu <;> cases hu
    exact ⟨hp, hne⟩
  | emptyNext _ _ _ _ ih => exact ih hu
  | @emptyError _ _ u _ _ _ _ ih =>
    cases u with
    | start | never => rcases hu with hu | hu <;> cases hu
    | done | failed =>
      rcases hu with hu | hu <;> cases hu
      exact ih (by simp)

/-- Every group and chain of a forest waits for something, if those among the roots do. -/
theorem Forest.attached {heap : Ref → Scheduler} {roots part : List Ref}
    (h : Forest heap roots part) (hsub : ∀ a ∈ part, a ∈ refs)
    (hroots : ∀ r ∈ roots, (heap r).IsDelayable ∨ ∃ u, Attached heap root refs r u) :
    ∀ a ∈ part, (heap a).IsDelayable ∨ ∃ u, Attached heap root refs a u := by
  have hcallbacks {r : Ref} (hr : r ∈ refs)
      (hu : (heap r).IsDelayable ∨ ∃ u, Attached heap root refs r u) :
      (∀ x ∈ (heap r).nextDelayables, (heap x).IsDelayable ∨ ∃ u, Attached heap root refs x u) ∧
        ∀ x ∈ (heap r).onErrorDelayables,
          (heap x).IsDelayable ∨ ∃ u, Attached heap root refs x u := by
    by_cases hempty : (heap r).IsEmpty
    · obtain ⟨u, hu⟩ := hu.resolve_left fun ⟨_, _, _, hcls⟩ ↦ by
        rcases hempty with h | h <;> rw [hcls] at h <;> cases h
      exact ⟨fun x hx ↦ .inr ⟨u, .emptyNext hr hempty hu hx⟩,
        fun x hx ↦ .inr ⟨u.onError, .emptyError hr hempty hu hx⟩⟩
    · exact ⟨fun x hx ↦ .inr ⟨.done r, .next hr hempty hx⟩,
        fun x hx ↦ .inr ⟨.failed r, .error hr hempty hx⟩⟩
  induction h with
  | nil => exact fun a ha ↦ by cases ha
  | @delayable r call properties roots next error rest hcls _ _ _ ihNext ihError ih =>
    simp only [List.cons_append, List.append_assoc, List.mem_cons, List.mem_append] at hsub ⊢
    obtain ⟨hn, he⟩ := hcallbacks (hsub r (.inl rfl)) (hroots r List.mem_cons_self)
    rintro a (rfl | ha | ha | ha)
    · exact hroots a List.mem_cons_self
    · exact ihNext (fun a ha ↦ hsub a (by simp [ha])) hn a ha
    · exact ihError (fun a ha ↦ hsub a (by simp [ha])) he a ha
    · exact ih (fun a ha ↦ hsub a (by simp [ha]))
        (fun x hx ↦ hroots x (List.mem_cons_of_mem _ hx)) a ha
  | @compound r delayables roots members next error rest _ hd _ _ _ _ ihMembers ihNext ihError ih =>
    simp only [List.cons_append, List.append_assoc, List.mem_cons, List.mem_append] at hsub ⊢
    obtain ⟨hn, he⟩ := hcallbacks (hsub r (.inl rfl)) (hroots r List.mem_cons_self)
    rintro a (rfl | ha | ha | ha | ha)
    · exact hroots a List.mem_cons_self
    · exact ihMembers (fun a ha ↦ hsub a (by simp [ha])) (fun x hx ↦ .inl (hd x hx)) a ha
    · exact ihNext (fun a ha ↦ hsub a (by simp [ha])) hn a ha
    · exact ihError (fun a ha ↦ hsub a (by simp [ha])) he a ha
    · exact ih (fun a ha ↦ hsub a (by simp [ha]))
        (fun x hx ↦ hroots x (List.mem_cons_of_mem _ hx)) a ha

/-- Every empty scheduler of a tree waits for something. -/
theorem DelayedTree.exists_attached (h : DelayedTree env st root refs st') (he : e ∈ refs)
    (hempty : (st.heap e).IsEmpty) : ∃ u, Attached st.heap root refs e u := by
  refine (h.forest.attached (fun _ ha ↦ ha) (fun r hr ↦ ?_) e he).resolve_left ?_
  · exact .inr ⟨.start, List.mem_singleton.mp hr ▸ .root⟩
  · rintro ⟨_, _, _, hcls⟩
    rcases hempty with h | h <;> rw [hcls] at h <;> cases h

/-- Before the first event only the start has happened. -/
theorem DelayedTree.not_holds (h : DelayedTree env st root refs st') {u : Prerequisite}
    (hu : Attached st.heap root refs x u) (hne : u ≠ .start) : ¬ u.Holds st' st'.store := by
  have hcomp := h.compiles.1
  cases u with
  | start => exact absurd rfl hne
  | never => exact id
  | done p =>
    obtain ⟨hp, hpne⟩ := hu.source (.inl rfl)
    intro hdone
    obtain ⟨j, hj⟩ := h.exists_entry hp hpne
    have hmem := mem_jobsOf_of_entry hj
    exact (hcomp.no_outcome hp hmem).1 (hdone j hmem)
  | failed p =>
    obtain ⟨hp, _⟩ := hu.source (.inr rfl)
    rintro ⟨q, hq, hfailed⟩
    exact (hcomp.no_outcome hp hq).2 hfailed

/-- The empty schedulers of a tree hand on what they wait for exactly when there is nothing
to hand on. -/
theorem DelayedTree.emptiesKeepEdges_iff (h : DelayedTree env st root refs st') :
    EmptiesKeepEdges st st' root refs ↔ OnlyAtStart st root refs := by
  have hcomp := h.compiles.1
  have hfilled {x : Ref} {j : JobId} (hj : j ∈ st'.jobsOf x) : ¬ (st.heap x).IsEmpty := fun hx ↦
    not_isEmpty_of_job hj ((comprises_of_shape (hcomp.shape x) []).mpr hx)
  constructor
  · intro hkeep e he hempty u hu
    obtain ⟨hnext, herror, _⟩ := hkeep e he hempty u hu
    let w : World := { store := st'.store, now := 0 }
    refine ⟨fun x hx ↦ ?_, fun x hx ↦ ?_⟩
    · by_contra hn
      obtain ⟨hfull, hstart⟩ := not_or.mp hn
      obtain ⟨j, hj⟩ := h.exists_entry (hcomp.mem_of_callback he (.inl hx)) hfull
      exact h.not_holds hu hstart (hnext x hx j (mem_jobsOf_of_entry hj) w w rfl .refl
        (.inl (h.pending_behind_empty he hempty (.inl hx) hj)))
    · by_contra hfull
      obtain ⟨j, hj⟩ := h.exists_entry (hcomp.mem_of_callback he (.inr hx)) hfull
      refine h.not_holds (.emptyError he hempty hu hx) ?_ (herror x hx j (mem_jobsOf_of_entry hj)
        w w rfl .refl (.inl (h.pending_behind_empty he hempty (.inr hx) hj)))
      cases u <;> exact nofun
  · intro honly e he hempty u hu
    obtain ⟨hnext, herror⟩ := honly e he hempty u hu
    refine ⟨fun x hx j hj w w' _ _ _ ↦ ?_, fun x hx j hj ↦ ?_, fun _ x hx j hj ↦ ?_⟩
    · obtain rfl := (hnext x hx).resolve_left (hfilled hj)
      trivial
    · exact absurd (herror x hx) (hfilled hj)
    · exact h.pending_behind_empty he hempty (.inl hx) hj

end Empty

/-! ### A callback that does not wait -/

/-- Object 0 with the empty group 1 behind it, and object 2 behind the group. -/
def emptyBehind (first : SchedulerClass) : Session where
  heap
    | 0 => { cls := first, nextDelayables := [1] }
    | 1 => { cls := .group [], nextDelayables := [2] }
    | _ => { cls := .delayable { modelName := "res.partner", jobMethod := some "ping" } {} none }
  store := .empty

/-- Behind a job and an empty group the callback starts pending, as the job does. -/
theorem not_emptiesKeepEdges_behindJob : ¬ ∀ (env : DelayEnv) (st : Session) (root : Ref)
    (refs : List Ref) (st' : Session), DelayedTree env st root refs st' →
      EmptiesKeepEdges st st' root refs := by
  intro hall
  let t := emptyBehind
    (.delayable { modelName := "res.partner", jobMethod := some "ping" } {} none)
  have hrun : (delayed {} 5 0 t).map (fun st' ↦ (st'.jobsOf 0, st'.jobsOf 2,
      st'.store.stateOf 1, st'.store.stateOf 2)) =
        some ([1], [2], some .pending, some .pending) := by decide +kernel
  obtain ⟨st', hdelay, hout⟩ := Option.map_eq_some_iff.mp hrun
  simp only [Prod.mk.injEq] at hout
  obtain ⟨h0, h2, hs1, hs2⟩ := hout
  have htree := delayedTree_of_delayed hdelay (show visited _ 5 [0] = some [0, 1, 2] by decide)
    (by decide) (by decide) (by decide) rfl
  have hjob : ¬ (t.heap 0).IsEmpty := by rintro (h | h) <;> cases h
  let w : World := { store := st'.store, now := 0 }
  have hdone := (hall {} t 0 [0, 1, 2] st' htree 1 (by decide) (.inl rfl) (.done 0)
    (.next (by decide) hjob (List.mem_singleton_self 1))).1 2 (List.mem_singleton_self 2) 2
    (by rw [h2]; exact List.mem_singleton_self 2) w w rfl .refl (.inl hs2) 1
    (by rw [h0]; exact List.mem_singleton_self 1)
  rw [hs1] at hdone
  cases hdone

/-- Behind an empty root everything waits for nothing. -/
theorem eq_start_of_attached {x : Ref} {u : Prerequisite}
    (h : Attached (emptyBehind (.chain [])).heap 0 [0, 1, 2] x u) : u = .start := by
  have herror (p : Ref) : ((emptyBehind (.chain [])).heap p).onErrorDelayables = [] := by
    unfold emptyBehind
    dsimp only
    split <;> rfl
  induction h with
  | root => rfl
  | next hp hne hx =>
    fin_cases hp
    · exact absurd (.inr rfl) hne
    · exact absurd (.inl rfl) hne
    · cases hx
  | @error p _ _ _ hx =>
    rw [herror p] at hx
    cases hx
  | emptyNext _ _ _ _ ih => exact ih
  | @emptyError e _ _ _ _ _ hx =>
    rw [herror e] at hx
    cases hx

/-- The callbacks behind an empty root are all on_done callbacks. -/
theorem emptiesKeepEdges_iff_behindEmpty : ∃ st', EmptiesKeepEdges (emptyBehind (.chain [])) st' 0
    [0, 1, 2] ∧ OnlyAtStart (emptyBehind (.chain [])) 0 [0, 1, 2] := by
  have hrun : (delayed {} 5 0 (emptyBehind (.chain []))).isSome = true := by decide +kernel
  obtain ⟨st', hdelay⟩ := Option.isSome_iff_exists.mp hrun
  have htree := delayedTree_of_delayed hdelay (show visited _ 5 [0] = some [0, 1, 2] by decide)
    (by decide) (by decide) (by decide) rfl
  have honly : OnlyAtStart (emptyBehind (.chain [])) 0 [0, 1, 2] := by
    intro e he _ u hu
    refine ⟨fun x _ ↦ .inr (eq_start_of_attached hu), fun x hx ↦ ?_⟩
    fin_cases he <;> cases hx
  exact ⟨st', htree.emptiesKeepEdges_iff.mpr honly, honly⟩

end JobWorker
