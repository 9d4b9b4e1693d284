import JobWorker.Cascades.Rows
import JobWorker.Cascades.Success
import JobWorker.Graphs.WithoutDelay

/-!
# Submitting jobs one after another

What `enqueue` makes of a call, with `run_now` behind it when there is no queue: a new job, or
the one that is active with the identity key (`job_worker/delay.py:132–165`,
`models/queue_job.py:991–1000`).
-/

namespace JobWorker

open Relational Delaying

/-- The record ids in the payload of a job. -/
def Store.payloadIds (s : Store) (i : JobId) : List Nat :=
  ((s.get? i).map fun r ↦ r.payload.ids).getD []

/-- Some active job holds the key. -/
def Store.KeyHeld (s : Store) (key : Option IdentityKey) : Prop :=
  ∃ k i, key = some k ∧ s.ActiveWith k i

/-- Without the queue the job is executed at once, and its method returns. -/
def DelayEnv.CompletesAtOnce (env : DelayEnv) (job : JobId) : Prop :=
  env.mustRunWithoutDelay = true ∧ (env.run job).outcome.succeeded = true

/-- What `run_now` keeps of a row. -/
structure Lasting (r r' : Job) : Prop where
  payload : r'.payload = r.payload
  identityKey : r'.identityKey = r.identityKey
  isActive : r'.state.isActive = true → r.state.isActive = true

/-! ### The sequence of ids -/

section NextId

variable {s s' : Store} {job : JobId}

theorem nextId_write {f : Job → Job} {hk : ∀ r, (f r).identityKey = r.identityKey}
    (h : s.write job f hk = .ok s') : s'.nextId = s.nextId := by
  unfold Store.write at h
  split at h
  · cases h
  · cases h
    rfl

theorem nextId_walk (rule : ChildRule) (s : Store) (queue : List JobId) :
    (Store.walk rule s queue).nextId = s.nextId := by
  induction s, queue using Store.walk.induct rule with
  | case1 s => rw [Store.walk]
  | case2 s job queue ih =>
    rw [Store.walk]
    exact ih

theorem nextId_updateEach (p : JobId → Job → Bool) (f : JobId → Job → Job)
    (hp : ∀ j r, p j r = true → r.isWaiting = true) (hf : ∀ j r, (f j r).wiring = r.wiring)
    (s : Store) (self : List JobId) : (s.updateEach p f hp hf self).nextId = s.nextId := by
  induction self generalizing s with
  | nil => rfl
  | cons j self ih => exact ih _

theorem nextId_cascadeSuccessToDependents (now : Time) (s : Store) (job : JobId) :
    (cascadeSuccessToDependents now s job).nextId = s.nextId :=
  (nextId_updateEach _ _ _ _ _ [job]).trans (nextId_walk _ _ _)

end NextId

/-! ### Execution in place of the queue -/

section Run

variable {run : Execution} {now : Time} {s s' : Store} {job : JobId} {r r' r'' : Job}

theorem Lasting.refl (r : Job) : Lasting r r := ⟨rfl, rfl, id⟩

theorem Lasting.trans (h : Lasting r r') (h' : Lasting r' r'') : Lasting r r'' :=
  ⟨h'.payload.trans h.payload, h'.identityKey.trans h.identityKey, h.isActive ∘ h'.isActive⟩

/-- A cascade writes rows that wait only. -/
theorem Cascaded.lasting (h : Cascaded now r r') : Lasting r r' := by
  cases h with
  | kept => exact .refl r
  | written count excInfo cancelledAt hw _ _ =>
    refine ⟨rfl, rfl, fun _ ↦ ?_⟩
    rw [Job.isWaiting_iff.mp hw]
    rfl

/-- Executing an active job rewrites rows, and leaves it active exactly if its method did not
return. -/
theorem runJob_lasting (h : runJob run s job = .ok (s', false)) (hr : s.get? job = some r)
    (hactive : r.state.isActive = true) : s.Rowwise (fun _ ↦ Lasting) s' ∧
      s'.nextId = s.nextId ∧ ∃ r', s'.get? job = some r' ∧
        (r'.state.isActive = true ↔ run.outcome.succeeded = false) := by
  have hwritten {s₁ : Store} {f : Job → Job} {hk : ∀ r, (f r).identityKey = r.identityKey}
      (hw : s.write job f hk = .ok s₁) (hf : (f r).payload = r.payload) :
      s.Rowwise (fun _ ↦ Lasting) s₁ := by
    refine Store.rowwise_write hw (fun _ ↦ .refl) fun q hq ↦ ?_
    obtain rfl := Option.some.inj (hr.symm.trans hq)
    exact ⟨hf, hk r, fun _ ↦ hactive⟩
  cases runEffect h with
  | @returned serialized s₁ ho hw =>
    have hrow : s₁.get? job = some (ranRow run serialized r) := by
      rw [Store.get?_write hw, if_pos rfl, hr, Option.map_some]
    have hcascade := cascadesTo_cascadeSuccessToDependents run.finish s₁ job
    obtain ⟨r', hr', hrel⟩ := hcascade.row hrow
    refine ⟨(hwritten hw rfl).trans (fun _ _ _ _ ↦ .trans)
      (hcascade.mono fun _ _ _ ↦ Cascaded.lasting),
      (nextId_cascadeSuccessToDependents _ _ _).trans (nextId_write hw), r', hr', ?_⟩
    rw [hrel.eq rfl, ho]
    exact iff_of_false Bool.false_ne_true (Bool.false_ne_true ∘ Eq.symm)
  | @postponed exc traceback seconds ignoreRetry s₁ ho _ hw =>
    refine ⟨hwritten hw rfl, nextId_write hw, _,
      by rw [Store.get?_write hw, if_pos rfl, hr, Option.map_some], ?_⟩
    rw [ho]
    exact iff_of_true rfl rfl

end Run

section Rows

variable {s s' : Store} {i : JobId}

theorem isSome_of_rowwise {R : JobId → Job → Job → Prop} (h : s.Rowwise R s') (i : JobId) :
    (s'.get? i).isSome = (s.get? i).isSome := by
  cases hr : s.get? i with
  | none => rw [h.none hr]
  | some r =>
    obtain ⟨r', hr', _⟩ := h.row hr
    rw [hr']
    rfl

theorem payloadIds_of_lasting (h : s.Rowwise (fun _ ↦ Lasting) s') (i : JobId) :
    s'.payloadIds i = s.payloadIds i := by
  unfold Store.payloadIds
  cases hr : s.get? i with
  | none => rw [h.none hr]
  | some r =>
    obtain ⟨r', hr', hlasting⟩ := h.row hr
    rw [hr', Option.map_some, Option.map_some, hlasting.payload]

theorem activeWith_of_lasting (h : s.Rowwise (fun _ ↦ Lasting) s') {k : IdentityKey}
    (hheld : s'.ActiveWith k i) : s.ActiveWith k i := by
  obtain ⟨r', hr', hkey, hactive⟩ := hheld
  obtain ⟨r, hr, hlasting⟩ := h.row_before hr'
  exact ⟨r, hr, hlasting.identityKey.symm.trans hkey, hlasting.isActive hactive⟩

end Rows

/-! ### One submission -/

/-- What delaying the delayable of a chunk does to the table: the job `job` is new, and holds its
key unless it is completed at once, or there was one with its key. -/
inductive Submitted (env : DelayEnv) (key : Option IdentityKey) (chunkIds : List Nat)
    (s s' : Store) (job : JobId) : Prop
  | created : ¬ s.KeyHeld key → job = s.nextId → s'.nextId = s.nextId + 1 →
      s'.payloadIds job = chunkIds →
      (∀ i, (s'.get? i).isSome = true ↔ i = job ∨ (s.get? i).isSome = true) →
      (∀ i, i ≠ job → s'.payloadIds i = s.payloadIds i) →
      (∀ k i, s'.ActiveWith k i →
        i = job ∧ key = some k ∧ ¬ env.CompletesAtOnce job ∨ s.ActiveWith k i) →
      (¬ env.CompletesAtOnce job → ∀ k, key = some k → s'.ActiveWith k job) →
      Submitted env key chunkIds s s' job
  | found : s.KeyHeld key → s'.nextId = s.nextId →
      (∀ i, (s'.get? i).isSome = (s.get? i).isSome) → (∀ i, s'.payloadIds i = s.payloadIds i) →
      Submitted env key chunkIds s s' job

section Submitted

variable {env : DelayEnv} {s s₁ s' : Store} {a : EnqueueArgs} {job : JobId}

/-- `run_now` behind `enqueue`, without the queue. -/
def Ran (env : DelayEnv) (job : JobId) (s s' : Store) : Prop :=
  if env.mustRunWithoutDelay then runJob (env.run job) s job = .ok (s', false) else s' = s

theorem Ran.lasting (h : Ran env job s s') {r : Job} (hr : s.get? job = some r)
    (hactive : r.state.isActive = true) : s.Rowwise (fun _ ↦ Lasting) s' ∧ s'.nextId = s.nextId ∧
      ∃ r', s'.get? job = some r' ∧ (r'.state.isActive = true ↔ ¬ env.CompletesAtOnce job) := by
  unfold Ran at h
  split at h
  · next hmust =>
    obtain ⟨hrows, hnext, r', hr', hstate⟩ := runJob_lasting h hr hactive
    refine ⟨hrows, hnext, r', hr', ?_⟩
    rw [hstate, DelayEnv.CompletesAtOnce, hmust, eq_self, true_and, Bool.not_eq_true]
  · next hmust =>
    subst h
    exact ⟨.refl (fun _ ↦ .refl) _, rfl, r, hr, iff_of_true hactive fun hc ↦ hmust hc.1⟩

/-- `enqueue` and the execution behind it submit a job. -/
theorem submitted_of_enqueue (henq : enqueue env.orm env.now s a = .ok (s₁, job))
    (hran : Ran env job s₁ s') :
    Submitted env (storedIdentityKey a.identityKey) a.recordIds s s' job := by
  rcases enqueue_cases henq with ⟨rfl, hfound⟩ | ⟨eta, _, hfound, hcreate⟩
  · obtain ⟨k, hk, hfind⟩ := Option.bind_eq_some_iff.mp hfound
    obtain ⟨r, hr, _, hkey, hactive⟩ := activeWith_of_findByIdentityKey hfind
    obtain ⟨hrows, hnext, _⟩ := hran.lasting hr hactive
    exact .found ⟨k, job, hk, r, hr, hkey, hactive⟩ hnext (isSome_of_rowwise hrows)
      (payloadIds_of_lasting hrows)
  · have hrow := Store.get?_create_self hcreate
    obtain ⟨hjob, hnext⟩ := Store.create_nextId hcreate
    obtain ⟨hrows, hnext', r', hr', hstate⟩ :=
      hran.lasting hrow (isActive_enqueueVals env.orm env.now a eta)
    have hbefore (i : JobId) (hi : i ≠ job) : s₁.get? i = s.get? i := by
      rw [Store.get?_create hcreate, if_neg hi]
    have hactive {k : IdentityKey} (h : s'.ActiveWith k job) :
        storedIdentityKey a.identityKey = some k ∧ ¬ env.CompletesAtOnce job := by
      obtain ⟨q, hq, hkey, hactive⟩ := h
      obtain ⟨r, hr, hlasting⟩ := hrows.row_before hq
      obtain rfl := Option.some.inj (hrow.symm.trans hr)
      obtain rfl := Option.some.inj (hr'.symm.trans hq)
      exact ⟨hlasting.identityKey.symm.trans hkey, hstate.mp hactive⟩
    have hfree : ¬ s.KeyHeld (storedIdentityKey a.identityKey) := by
      rintro ⟨k, i, hk, r, hr, hkey, hheld⟩
      have hsame := s₁.identityKeyActiveUniq i job r _ (Store.get?_create_of_some hcreate hr) hrow
        ⟨by rw [hkey]; rfl, hkey.trans hk.symm, hheld, isActive_enqueueVals _ _ _ _⟩
      rw [hsame, Store.create_fresh hcreate] at hr
      cases hr
    refine .created hfree hjob (hnext'.trans hnext) ?_ (fun i ↦ ?_) (fun i hi ↦ ?_) (fun k i h ↦ ?_)
      fun hc k hk ↦ ?_
    · rw [payloadIds_of_lasting hrows, Store.payloadIds, hrow]
      rfl
    · rw [isSome_of_rowwise hrows]
      by_cases hi : i = job
      · subst hi
        simp [hrow]
      · simp [hbefore i hi, hi]
    · rw [payloadIds_of_lasting hrows, Store.payloadIds, hbefore i hi, Store.payloadIds]
    · by_cases hi : i = job
      · subst hi
        exact .inl ⟨rfl, hactive h⟩
      · right
        obtain ⟨r, hr, hheld⟩ := activeWith_of_lasting hrows h
        exact ⟨r, hbefore i hi ▸ hr, hheld⟩
    · obtain ⟨q, hq, hlasting⟩ := hrows.row hrow
      obtain rfl := Option.some.inj (hr'.symm.trans hq)
      exact ⟨r', hr', hlasting.identityKey.trans hk, hstate.mpr hc⟩

end Submitted

/-! ### Submissions in a row -/

/-- The chunks are submitted in turn. -/
inductive Submissions (env : DelayEnv) (key : List Nat → Option IdentityKey) :
    Store → List (List Nat) → Store → Prop
  | nil {s : Store} : Submissions env key s [] s
  | cons {s s₁ s' : Store} {chunkIds : List Nat} {chunks : List (List Nat)} {job : JobId} :
      Submitted env (key chunkIds) chunkIds s s₁ job → Submissions env key s₁ chunks s' →
      Submissions env key s (chunkIds :: chunks) s'

/-- No chunk finds the key of an earlier one held, when the first new job is `n`: the keys differ,
or the job of the earlier one is completed at once. -/
def Apart (env : DelayEnv) (key : List Nat → Option IdentityKey) :
    JobId → List (List Nat) → Prop
  | _, [] => True
  | n, chunkIds :: chunks =>
    (env.CompletesAtOnce n ∨ ∀ c ∈ chunks, ∀ k, key chunkIds = some k → key c ≠ some k) ∧
      Apart env key (n + 1) chunks

/-- The new jobs with their chunks. -/
structure Creates (chunks : List (List Nat)) (s s' : Store) (created : List (JobId × List Nat)) :
    Prop where
  sublist : (created.map Prod.snd).Sublist chunks
  nodup : (created.map Prod.fst).Nodup
  mem : ∀ i, i ∈ created.map Prod.fst ↔ s.get? i = none ∧ (s'.get? i).isSome = true
  payloadIds : ∀ p ∈ created, s'.payloadIds p.1 = p.2
  nextId : s'.nextId = s.nextId + created.length

section Submissions

variable {env : DelayEnv} {key : List Nat → Option IdentityKey} {s s' : Store}
  {chunks : List (List Nat)}

theorem Store.get?_nextId (s : Store) : s.get? s.nextId = none := by
  cases h : s.get? s.nextId with
  | none => rfl
  | some r => exact absurd (s.lt_nextId _ r h) (Nat.lt_irrefl _)

/-- Jobs persist, with their payloads. -/
theorem Submissions.kept (h : Submissions env key s chunks s') {i : JobId}
    (hi : (s.get? i).isSome = true) :
    (s'.get? i).isSome = true ∧ s'.payloadIds i = s.payloadIds i := by
  induction h with
  | nil => exact ⟨hi, rfl⟩
  | @cons s s₁ s' c cs job hsubmitted _ ih =>
    cases hsubmitted with
    | created _ hjob _ _ hrows hpayload _ _ =>
      have hne : i ≠ job := by
        rintro rfl
        rw [hjob, s.get?_nextId] at hi
        cases hi
      obtain ⟨hrow, hids⟩ := ih ((hrows i).mpr (.inr hi))
      exact ⟨hrow, hids.trans (hpayload i hne)⟩
    | found _ _ hrows hpayload =>
      obtain ⟨hrow, hids⟩ := ih ((hrows i).trans hi)
      exact ⟨hrow, hids.trans (hpayload i)⟩

/-- Some of the chunks get a new job. -/
theorem Submissions.creates (h : Submissions env key s chunks s') :
    ∃ created, Creates chunks s s' created := by
  induction h with
  | @nil s =>
    refine ⟨[], .slnil, List.nodup_nil, fun i ↦ ?_, nofun, rfl⟩
    cases s.get? i <;> simp
  | @cons s s₁ s' c cs job hsubmitted hrest ih =>
    obtain ⟨created, hcreates⟩ := ih
    cases hsubmitted with
    | created _ hjob hnext hids hrows _ _ _ =>
      have hnew : s.get? job = none := hjob ▸ s.get?_nextId
      obtain ⟨hkept, hpayload⟩ := hrest.kept ((hrows job).mpr (.inl rfl))
      refine ⟨(job, c) :: created, hcreates.sublist.cons_cons c, ?_, fun i ↦ ?_, ?_, ?_⟩
      · refine List.nodup_cons.mpr ⟨fun hmem ↦ ?_, hcreates.nodup⟩
        have hsome := (hrows job).mpr (.inl rfl)
        rw [((hcreates.mem job).mp hmem).1] at hsome
        cases hsome
      · have hbefore : s₁.get? i = none ↔ i ≠ job ∧ s.get? i = none := by
          rw [← Option.not_isSome_iff_eq_none, hrows, not_or, Option.not_isSome_iff_eq_none]
        rw [List.map_cons, List.mem_cons, hcreates.mem, hbefore]
        constructor
        · rintro (rfl | ⟨⟨_, hnone⟩, hsome⟩)
          · exact ⟨hnew, hkept⟩
          · exact ⟨hnone, hsome⟩
        · rintro ⟨hnone, hsome⟩
          by_cases hi : i = job
          · exact .inl hi
          · exact .inr ⟨⟨hi, hnone⟩, hsome⟩
      · exact List.forall_mem_cons.mpr ⟨hpayload.trans hids, hcreates.payloadIds⟩
      · rw [hcreates.nextId, hnext, List.length_cons, Nat.add_right_comm, Nat.add_assoc]
    | found _ hnext hrows _ =>
      refine ⟨created, hcreates.sublist.cons c, hcreates.nodup, fun i ↦ ?_, hcreates.payloadIds,
        hnext ▸ hcreates.nextId⟩
      rw [hcreates.mem, ← Option.not_isSome_iff_eq_none, hrows, Option.not_isSome_iff_eq_none]

theorem Submissions.nextId_le (h : Submissions env key s chunks s') :
    s'.nextId ≤ s.nextId + chunks.length := by
  obtain ⟨created, hcreates⟩ := h.creates
  have hlength := hcreates.sublist.length_le
  rw [List.length_map] at hlength
  rw [hcreates.nextId]
  exact Nat.add_le_add_left hlength _

/-- Where no key is held and the chunks are apart, the next one gets a new job, and it stays so. -/
theorem Submitted.step {s₁ : Store} {c : List Nat} {job : JobId}
    (h : Submitted env (key c) c s s₁ job) (hfree : ∀ c' ∈ c :: chunks, ¬ s.KeyHeld (key c'))
    (hapart : Apart env key s.nextId (c :: chunks)) :
    s₁.nextId = s.nextId + 1 ∧ (∀ c' ∈ chunks, ¬ s₁.KeyHeld (key c')) ∧
      Apart env key s₁.nextId chunks ∧ (s₁.get? job).isSome = true := by
  obtain ⟨hc, hfree⟩ := List.forall_mem_cons.mp hfree
  obtain ⟨hhead, htail⟩ := hapart
  cases h with
  | found hheld => exact absurd hheld hc
  | created _ hjob hnext _ hrows _ hactive _ =>
    rw [← hnext] at htail
    refine ⟨hnext, ?_, htail, (hrows job).mpr (.inl rfl)⟩
    rintro c' hc' ⟨k, i, hkey, hheld⟩
    rcases hactive k i hheld with ⟨_, hk, hcompletes⟩ | hheld
    · rcases hhead with hnow | hdiffer
      · exact hcompletes (hjob ▸ hnow)
      · exact hdiffer c' hc' k hk hkey
    · exact hfree c' hc' ⟨k, i, hkey, hheld⟩

/-- So every one gets a new job. -/
theorem Submissions.all_created (h : Submissions env key s chunks s')
    (hfree : ∀ c ∈ chunks, ¬ s.KeyHeld (key c)) (hapart : Apart env key s.nextId chunks) :
    s'.nextId = s.nextId + chunks.length := by
  induction h with
  | nil => rfl
  | cons hsubmitted _ ih =>
    obtain ⟨hnext, hfree, hapart, _⟩ := hsubmitted.step hfree hapart
    rw [ih hfree hapart, hnext, List.length_cons, Nat.add_right_comm, Nat.add_assoc]

/-- The first chunk gets a new job where all do. -/
theorem Submissions.created_of_all {c : List Nat} (h : Submissions env key s (c :: chunks) s')
    (hall : s'.nextId = s.nextId + (c :: chunks).length) :
    ¬ s.KeyHeld (key c) ∧ ∃ s₁, Submissions env key s₁ chunks s' ∧ s₁.nextId = s.nextId + 1 ∧
      (¬ env.CompletesAtOnce s.nextId → ∀ k, key c = some k → s₁.ActiveWith k s.nextId) := by
  cases h with
  | @cons _ s₁ _ _ _ job hsubmitted hrest =>
    cases hsubmitted with
    | created hfree hjob hnext _ _ _ _ hheld =>
      subst hjob
      exact ⟨hfree, s₁, hrest, hnext, hheld⟩
    | found _ hnext _ _ =>
      have hle := hrest.nextId_le
      rw [hall, hnext, List.length_cons] at hle
      exact absurd (Nat.add_le_add_iff_left.mp hle) (Nat.not_succ_le_self _)

/-- With one key for all, chunks that all get a new job are completed at once, but for the last
one. -/
theorem Submissions.completes {k : IdentityKey} (h : Submissions env (fun _ ↦ some k) s chunks s')
    (hall : s'.nextId = s.nextId + chunks.length) {i : Nat} (hi : i + 1 < chunks.length) :
    env.CompletesAtOnce (s.nextId + i) := by
  induction chunks generalizing s i with
  | nil => exact absurd hi (Nat.not_lt_zero _)
  | cons c cs ih =>
    obtain ⟨_, s₁, hrest, hnext, hheld⟩ := h.created_of_all hall
    have hall₁ : s'.nextId = s₁.nextId + cs.length := by
      rw [hall, hnext, List.length_cons, Nat.add_right_comm, Nat.add_assoc]
    cases i with
    | zero =>
      by_contra hcompletes
      cases cs with
      | nil => exact absurd hi (Nat.lt_irrefl _)
      | cons c' cs =>
        obtain ⟨hfree, _⟩ := hrest.created_of_all hall₁
        exact hfree ⟨k, _, rfl, hheld hcompletes k rfl⟩
    | succ i =>
      have hrec := ih hrest hall₁ (Nat.lt_of_succ_lt_succ hi)
      rwa [hnext, Nat.add_assoc, Nat.add_comm 1] at hrec

end Submissions

end JobWorker
