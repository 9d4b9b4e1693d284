import JobWorker.Cli.MainLoop

/-!
# The upgrade gate

A closed gate keeps the main loop away from the registry and from the queue, and the
registry is checked before the first acquisition behind it.
-/

namespace JobWorker

open Transition QueueWorker

/-- The main thread is between two gate answers at the top of a cycle: it neither checks the
registry nor takes jobs. -/
def Pc.paused : Pc → Bool
  | listen | gateAtTop | updateHeartbeats | select | backOff | shutdown | ended => true
  | _ => false

section Gate

variable {cfg : MainLoopConfig} {s s' : QueueWorker} {a : LoopAction}

/-- A worker stays paused until the gate answers open. -/
theorem paused_next (h : s.next cfg a = some s') (hp : s.pc.paused = true)
    (ha : a ≠ .gate (.ok true)) : s'.pc.paused = true := by
  cases effect_of_next h with
  | tick | stop | finish => exact hp
  | openAtTop | openBeforeAcquire => exact absurd rfl ha
  | proceed hpc | wait hpc | checked hpc | acquired hpc | notAcquired hpc | slept hpc =>
    rw [hpc] at hp
    cases hp
  | _ => rfl

/-- A closed gate pauses the worker. -/
theorem paused_of_closed (h : s.next cfg (.gate (.ok false)) = some s') :
    s'.pc.paused = true ∧ s'.upgradeGateWasOpen = false := by
  cases effect_of_next h with
  | closed => exact ⟨rfl, rfl⟩
  | backOff _ ha | overslept _ ha => cases LoopAction.answers_of_failsDatabase ha
  | shutdown _ ha => cases ha.answers

/-- The gate was last seen closed, or its reopening has made the registry check due. -/
structure AwaitsCheck (s : QueueWorker) : Prop where
  position : s.pc.paused = true ∨ s.pc = .checkRegistry
  due : s.lastRegistryCheck = none ∨ s.upgradeGateWasOpen = false ∧ s.pc ≠ .checkRegistry

/-- A check without a last time is due. -/
theorem registryCheckDue_of_none (h : s.lastRegistryCheck = none) :
    s.registryCheckDue cfg = true := by
  simp [registryCheckDue, h]

/-- The check stays awaited until it is performed. -/
theorem awaitsCheck_next (h : s.next cfg a = some s') (hw : AwaitsCheck s)
    (ha : ¬ (a = .checkRegistry ∧ s.registryCheckDue cfg = true)) : AwaitsCheck s' := by
  obtain ⟨hpos, hdue⟩ := hw
  cases effect_of_next h with
  | tick | stop | finish => exact ⟨hpos, hdue⟩
  | proceed hpc | wait hpc | openBeforeAcquire hpc | acquired hpc | notAcquired hpc
  | slept hpc => simp [hpc, Pc.paused] at hpos
  | leave hpc => rcases hpc with hpc | hpc <;> simp [hpc, Pc.paused] at hpos
  | checked hpc =>
    rcases hdue with hn | ⟨_, hne⟩
    · exact absurd ⟨rfl, registryCheckDue_of_none hn⟩ ha
    · exact absurd hpc hne
  | openAtTop hpc =>
    refine ⟨.inr rfl, .inl ?_⟩
    rcases hdue with hn | ⟨hc, _⟩ <;> simp [goto, upgradeGateIsOpen, *]
  | closed => exact ⟨.inl rfl, .inr ⟨rfl, nofun⟩⟩
  | _ => exact ⟨.inl rfl, hdue.imp_right fun h ↦ ⟨h.1, nofun⟩⟩

/-- Without an open answer a paused worker stays paused over any part of a run. -/
theorem paused_run {mid : List (QueueWorker × LoopAction)} {t : QueueWorker}
    (h : Run (· = t) (fun s a s' ↦ s.next cfg a = some s') mid s)
    (ht : t.pc.paused = true) (hm : ∀ v, (v, .gate (.ok true)) ∉ mid) :
    s.pc.paused = true := by
  have hg : Guarded (fun _ a ↦ a ≠ .gate (.ok true)) mid := by
    rintro ⟨v, a⟩ hv rfl
    exact hm v hv
  apply h.invariant hg (fun u hu ↦ by rw [hu, ht])
  exact fun u a u' hu ha hs ↦ paused_next hs hu ha

/-- Without a performed check it stays awaited over any part of a run. -/
theorem awaitsCheck_run {mid : List (QueueWorker × LoopAction)} {t : QueueWorker}
    (h : Run (· = t) (fun s a s' ↦ s.next cfg a = some s') mid s) (ht : AwaitsCheck t)
    (hm : ∀ v, (v, .checkRegistry) ∈ mid → v.registryCheckDue cfg = false) :
    AwaitsCheck s := by
  have hg : Guarded (fun s a ↦ ¬ (a = .checkRegistry ∧ s.registryCheckDue cfg = true)) mid := by
    rintro ⟨v, a⟩ hv ⟨rfl, hd⟩
    rw [hm v hv] at hd
    cases hd
  apply h.invariant hg (fun u hu ↦ hu ▸ ht)
  exact fun u a u' hu ha hs ↦ awaitsCheck_next hs hu ha

end Gate

/-- Behind a closed answer, the main thread is in a registry check or in `_acquire_job` only
after an open answer, and in `_acquire_job` only after a registry check that was due. -/
theorem upgradeGate_gates {cfg : MainLoopConfig} {past mid : List (QueueWorker × LoopAction)}
    {u s : QueueWorker} (h : LoopRun cfg (mid ++ (u, .gate (.ok false)) :: past) s) :
    (s.pc = .checkRegistry ∨ s.pc = .acquireJob → ∃ v, (v, .gate (.ok true)) ∈ mid) ∧
      (s.pc = .acquireJob →
        ∃ v, (v, .checkRegistry) ∈ mid ∧ v.registryCheckDue cfg = true) := by
  obtain ⟨t, hclosed, hmid⟩ := h.split
  obtain ⟨_, hclosed⟩ := run_cons.mp hclosed
  obtain ⟨hpaused, hwas⟩ := paused_of_closed hclosed
  constructor
  · intro hpc
    by_contra hn
    have hs := paused_run hmid hpaused (not_exists.mp hn)
    rcases hpc with hpc | hpc <;> simp [hpc, Pc.paused] at hs
  · intro hpc
    by_contra hn
    have hwait : AwaitsCheck t :=
      ⟨.inl hpaused, .inr ⟨hwas, fun hc ↦ by simp [hc, Pc.paused] at hpaused⟩⟩
    have hs := awaitsCheck_run hmid hwait fun v hv ↦
      (Bool.not_eq_true _).mp fun hd ↦ hn ⟨v, hv, hd⟩
    simpa [hpc, Pc.paused] using hs.position

/-- A gate that closes at the top of the first cycle and opens in the second. -/
theorem upgradeGate_gates_reopened :
    ∃ (past mid : List (QueueWorker × LoopAction)) (u s : QueueWorker),
      LoopRun { workerUuid := 1 } (mid ++ (u, .gate (.ok false)) :: past) s ∧
        s.pc = .acquireJob ∧ (∃ v, (v, .gate (.ok true)) ∈ mid) ∧
          ∃ v, (v, .checkRegistry) ∈ mid ∧
            v.registryCheckDue { workerUuid := 1 } = true := by
  have hstart : LoopRun { workerUuid := 1 } [] _ := .start ⟨0, false, rfl⟩
  have hlisten := hstart.replay id (l := [.listen (.ok ())]) rfl
  have hclosed : LoopRun { workerUuid := 1 } _ _ := hlisten.step (a := .gate (.ok false)) rfl
  have hrun := hclosed.replay id (l := [.updateHeartbeats (.ok ()), .select (.ok ()),
    .gate (.ok true), .checkRegistry, .read, .gate (.ok true)]) rfl
  have hgates := upgradeGate_gates hrun
  exact ⟨_, _, _, _, hrun, rfl, hgates.1 (.inr rfl), hgates.2 rfl⟩

end JobWorker
