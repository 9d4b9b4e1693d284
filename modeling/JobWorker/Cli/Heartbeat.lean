import JobWorker.Base.AtomicReplace
import JobWorker.Base.IsoFormat
import JobWorker.Cli.FleetHealth

/-!
# The heartbeat file

The supervisor writes the wall-clock time of a healthy pass to a file, and a separate process
reads it, `job_worker/cli/heartbeat.py`, `job_worker/cli/runner.py:652–675`,
`job_worker_healthcheck.py`. The writer may be killed at any instruction and the directory
wiped by a restart. Floating-point numbers are a type with the operations that the file uses.
-/

namespace JobWorker

open AtomicReplace Transition

/-- `str.isspace` on one character, as `str.strip` uses it. -/
def isSpace (c : Char) : Bool :=
  let n := c.toNat
  decide (9 ≤ n ∧ n ≤ 13 ∨ 28 ≤ n ∧ n ≤ 32 ∨ 0x2000 ≤ n ∧ n ≤ 0x200a) ||
    [0x85, 0xa0, 0x1680, 0x2028, 0x2029, 0x202f, 0x205f, 0x3000].contains n

/-- `str.strip()`. -/
def strip (text : List Char) : List Char :=
  ((text.dropWhile isSpace).reverse.dropWhile isSpace).reverse

/-- The floating-point numbers of the runtime. -/
structure Floats (τ : Type) where
  /-- `repr(float(t))`. -/
  repr : τ → List Char
  /-- `float(text)`, none where it raises `ValueError`. -/
  float : List Char → Option τ
  /-- `(now - timestamp) < max_age`. -/
  isYounger : τ → τ → τ → Bool

/-- What the language promises of them: a number reads back from its text, which is short and
has no spaces, and a later timestamp is not older. -/
structure Floats.Lawful {τ : Type} [Preorder τ] (F : Floats τ) : Prop where
  float_repr : ∀ t, F.float (F.repr t) = some t
  short : ∀ t, (F.repr t).length ≤ 100
  nonempty : ∀ t, F.repr t ≠ []
  bare : ∀ t, ∀ c ∈ F.repr t, isSpace c = false
  younger_mono : ∀ now maxAge t u, t ≤ u → F.isYounger now t maxAge = true →
    F.isYounger now u maxAge = true

section Functions

variable {τ : Type} (F : Floats τ)

/-- `read_heartbeat` on the content of the file, none for a missing one;
`cli/heartbeat.py:82–101`. -/
def readHeartbeat (file : Option (List Char)) : Option τ :=
  file.bind fun text ↦
    let content := strip (text.take 100)
    if content.isEmpty then none else F.float content

/-- `is_fresh`, which the healthcheck exits with; `cli/heartbeat.py:104–112`. -/
def isFresh (file : Option (List Char)) (maxAge now : τ) : Bool :=
  match readHeartbeat F file with
  | none => false
  | some timestamp => F.isYounger now timestamp maxAge

end Functions

/-! ### A clock of microseconds -/

namespace WallClock

/-- Microseconds since the epoch, below the year 2287. -/
abbrev Micros := Fin (10 ^ 16)

/-- The text of a time of this century whose microseconds do not end in a zero. -/
def text (t : Micros) : List Char :=
  IsoFormat.padded 10 (t / 10 ^ 6) ++ '.' :: IsoFormat.padded 6 (t % 10 ^ 6)

/-- Reads that text. -/
def read : IsoFormat.Reader Nat := do
  let seconds ← IsoFormat.number 10
  IsoFormat.literal '.'
  let micros ← IsoFormat.number 6
  return seconds * 10 ^ 6 + micros

/-- A number of seconds. -/
def ofSeconds (n : Nat) : Micros := Fin.ofNat (10 ^ 16) (n * 10 ^ 6)

/-- The numbers of a clock that counts microseconds. -/
def floats : Floats Micros where
  repr := text
  float t := (read.run t).bind fun r ↦
    if h : r.2 = [] ∧ r.1 < 10 ^ 16 then some ⟨r.1, h.2⟩ else none
  isYounger now t maxAge := decide ((now.val : Int) - t.val < maxAge.val)

private theorem length_padded (width n : Nat) : (IsoFormat.padded width n).length = width := by
  induction width generalizing n with
  | zero => rfl
  | succ width ih => rw [IsoFormat.padded, List.length_append, ih, List.length_singleton]

private theorem not_isSpace_padded (width n : Nat) :
    ∀ c ∈ IsoFormat.padded width n, isSpace c = false := by
  induction width generalizing n with
  | zero => exact fun c hc ↦ by cases hc
  | succ width ih =>
    intro c hc
    rcases List.mem_append.mp hc with hc | hc
    · exact ih (n / 10) c hc
    · obtain rfl := List.mem_singleton.mp hc
      have hlt : n % 10 < 10 := Nat.mod_lt n (by omega)
      interval_cases n % 10 <;> decide

/-- They keep what the language promises. -/
theorem floats_lawful : floats.Lawful where
  float_repr t := by
    have hhigh : t.val / 10 ^ 6 < 10 ^ 10 := by omega
    have hlow : t.val % 10 ^ 6 < 10 ^ 6 := by omega
    have hread : read.run (text t) = some (t.val, []) := by
      have hmicros := IsoFormat.number_run hlow []
      rw [List.append_nil] at hmicros
      simp only [read, text, StateT.run_bind, IsoFormat.number_run hhigh, Option.bind_eq_bind,
        Option.bind_some, IsoFormat.literal_run, hmicros, StateT.run_pure]
      congr 2
      omega
    simp only [floats, hread, Option.bind_some]
    exact dif_pos ⟨trivial, t.isLt⟩
  short t := by
    simp only [floats, text, List.length_append, List.length_cons, length_padded]
    omega
  nonempty t := by simp [floats, text]
  bare t c hc := by
    rcases List.mem_append.mp hc with hc | hc
    · exact not_isSpace_padded _ _ c hc
    · rcases List.mem_cons.mp hc with rfl | hc
      · decide
      · exact not_isSpace_padded _ _ c hc
  younger_mono now maxAge t u hle h := by
    simp only [floats, decide_eq_true_eq] at h ⊢
    have hval : t.val ≤ u.val := hle
    omega

end WallClock

/-! ### The supervisor and its file -/

/-- The file, its writer and its readers, and the wall clock. -/
structure HeartbeatSystem (τ : Type) where
  files : Files Unit Char := {}
  now : τ

/-- The clock may be set at any time. A pass of the supervisor that finds the fleet healthy
opens the temporary file, and the rest of `write_heartbeat` goes on step by step. -/
inductive HeartbeatAction (τ : Type)
  | setClock (now : τ)
  | updateHeartbeat (fleet : FleetHealth) (monotonic : Time)
  | flush (n : Nat)
  | replace
  | crash
  | wipe
  | openFile

namespace HeartbeatSystem

variable {τ : Type} (F : Floats τ) (s : HeartbeatSystem τ)

/-- What an action does to the file: `_update_heartbeat` leaves it alone while the fleet is
degraded; `cli/runner.py:652–675`, `cli/heartbeat.py:58–79`. -/
def fileAction : HeartbeatAction τ → Option (Action Unit Char)
  | .setClock _ => none
  | .updateHeartbeat fleet monotonic =>
    if fleet.fleetIsDegraded monotonic then none else some (.openTemporary () (F.repr s.now))
  | .flush n => some (.flush () n)
  | .replace => some (.replace ())
  | .crash => some (.crash ())
  | .wipe => some .wipe
  | .openFile => some .openTarget

/-- The clock behind an action. -/
def clockBehind : HeartbeatAction τ → τ
  | .setClock now => now
  | _ => s.now

/-- One step, where it is possible. -/
def next (a : HeartbeatAction τ) : Option (HeartbeatSystem τ) :=
  match s.fileAction F a with
  | none => some { s with now := s.clockBehind a }
  | some b => (s.files.next b).map fun files ↦ { files, now := s.clockBehind a }

/-- No file, at some time. -/
def Starts : Prop := s.files = {}

/-- The clock is not set back. -/
def Forward [LE τ] (s : HeartbeatSystem τ) : HeartbeatAction τ → Prop
  | .setClock now => s.now ≤ now
  | _ => True

instance (s : HeartbeatSystem τ) [LE τ] [DecidableLE τ] : ∀ a, Decidable (s.Forward a)
  | .setClock now => inferInstanceAs (Decidable (s.now ≤ now))
  | .updateHeartbeat _ _ | .flush _ | .replace | .crash | .wipe | .openFile => isTrue trivial

/-- The file that is in place now. -/
def file : Option (List Char) := s.files.target.map s.files.content

/-- A pass of the supervisor that found the fleet healthy. -/
def Healthy : HeartbeatAction τ → Prop
  | .updateHeartbeat fleet monotonic => fleet.fleetIsDegraded monotonic = false
  | _ => False

end HeartbeatSystem

/-- Runs of the heartbeat. -/
abbrev HeartbeatRun {τ : Type} (F : Floats τ) :
    List (HeartbeatSystem τ × HeartbeatAction τ) → HeartbeatSystem τ → Prop :=
  Run HeartbeatSystem.Starts fun s a s' ↦ s.next F a = some s'

/-- A pass, its write in two pieces, a reader, and a pass that is killed. -/
def WallClock.passes : List (HeartbeatAction WallClock.Micros) :=
  [.setClock 1723456789123456, .updateHeartbeat {} 0, .flush 4, .flush 20, .replace, .openFile,
    .setClock 1723456799123456, .updateHeartbeat {} 0, .flush 4, .crash]

/-- The run of these passes. -/
theorem WallClock.exists_passes : ∃ past s, HeartbeatRun WallClock.floats past s ∧
    Guarded HeartbeatSystem.Forward past ∧ s.files.readers = [0] ∧
    isFresh WallClock.floats s.file (WallClock.ofSeconds 60) s.now = true := by
  have hrun : (replay (HeartbeatSystem.next WallClock.floats) { now := 0 }
      WallClock.passes).map (fun r ↦
      (r.1.all fun p ↦ decide (p.1.Forward p.2), r.2.files.readers,
        isFresh WallClock.floats r.2.file (WallClock.ofSeconds 60) r.2.now)) =
      some (true, [0], true) := by
    decide +kernel
  obtain ⟨⟨past, s⟩, hreplay, heq⟩ := Option.map_eq_some_iff.mp hrun
  simp only [Prod.mk.injEq, List.all_eq_true, decide_eq_true_eq] at heq
  have hstart : HeartbeatSystem.Starts ({ now := 0 } : HeartbeatSystem WallClock.Micros) := rfl
  exact ⟨past, s, Run.of_replay id hstart hreplay, heq⟩

section Runs

variable {τ : Type} {F : Floats τ} {past : List (HeartbeatSystem τ × HeartbeatAction τ)}
  {s s' : HeartbeatSystem τ} {a : HeartbeatAction τ}

/-- The steps on the files. -/
def filePast (F : Floats τ) (past : List (HeartbeatSystem τ × HeartbeatAction τ)) :
    List (Files Unit Char × Action Unit Char) :=
  past.filterMap fun p ↦ (p.1.fileAction F p.2).map fun b ↦ (p.1.files, b)

/-- The file behind a run is the file behind its own steps. -/
theorem replaceRun_of_heartbeatRun (h : HeartbeatRun F past s) :
    ReplaceRun (filePast F past) s.files := by
  induction h with
  | start h => exact .start h
  | @step past s s' a _ hs ih =>
    rw [HeartbeatSystem.next] at hs
    cases hb : s.fileAction F a with
    | none =>
      rw [hb] at hs
      cases hs
      rw [filePast, List.filterMap_cons, hb]
      exact ih
    | some b =>
      rw [hb] at hs
      obtain ⟨files, hfiles, rfl⟩ := Option.map_eq_some_iff.mp hs
      rw [filePast, List.filterMap_cons, hb]
      exact ih.step hfiles

/-- The runner is the only writer of its file. -/
theorem alone_filePast : Guarded Files.Alone (filePast F past) := by
  intro p _
  obtain ⟨files, b⟩ := p
  cases b with
  | openTemporary i _ => exact fun j hj ↦ absurd rfl hj
  | _ => trivial

/-- The files of a run are sound. -/
theorem sound_files (h : HeartbeatRun F past s) : Sound (filePast F past) s.files :=
  ReplaceRun.sound (replaceRun_of_heartbeatRun h) alone_filePast

/-- A value put in place is the time of a healthy pass. -/
theorem exists_healthy_of_mem {bytes : List Char} (h : HeartbeatRun F past s)
    (hb : bytes ∈ replacements (filePast F past)) :
    ∃ p ∈ past, HeartbeatSystem.Healthy p.2 ∧ bytes = F.repr p.1.now := by
  obtain ⟨q, hq, i, heq⟩ := ReplaceRun.began_of_mem (replaceRun_of_heartbeatRun h) hb
  obtain ⟨p, hp, hpq⟩ := List.mem_filterMap.mp hq
  obtain ⟨b, hb, rfl⟩ := Option.map_eq_some_iff.mp hpq
  refine ⟨p, hp, ?_⟩
  obtain rfl : b = .openTemporary i bytes := heq
  cases ha : p.2 with
  | updateHeartbeat fleet monotonic =>
    rw [ha, HeartbeatSystem.fileAction] at hb
    split at hb
    · cases hb
    · next hd =>
      cases hb
      exact ⟨Bool.eq_false_iff.mpr hd, rfl⟩
  | _ => rw [ha] at hb; cases hb

variable [Preorder τ]

/-- A bare text is not stripped. -/
theorem strip_of_bare {text : List Char} (h : ∀ c ∈ text, isSpace c = false) :
    strip text = text := by
  have hdrop (l : List Char) (hl : ∀ c ∈ l, isSpace c = false) : l.dropWhile isSpace = l := by
    cases l with
    | nil => rfl
    | cons c l => rw [List.dropWhile_cons, hl c List.mem_cons_self, if_neg Bool.false_ne_true]
  rw [strip, hdrop text h, hdrop text.reverse, List.reverse_reverse]
  exact fun c hc ↦ h c (List.mem_reverse.mp hc)

/-- The text of a time is read back from the file. -/
theorem readHeartbeat_repr (hF : F.Lawful) (t : τ) :
    readHeartbeat F (some (F.repr t)) = some t := by
  rw [readHeartbeat, Option.bind_some, List.take_of_length_le (hF.short t),
    strip_of_bare (hF.bare t)]
  dsimp only
  rw [if_neg, hF.float_repr]
  rw [List.isEmpty_iff]
  exact hF.nonempty t

/-- **A reader never sees a half-written heartbeat**: whatever file it has opened, and however
the runner was killed and restarted since, it reads the time of a pass of the supervisor that
found the fleet healthy. -/
theorem readHeartbeat_opened (hF : F.Lawful) (h : HeartbeatRun F past s) :
    ∀ n ∈ s.files.readers, ∃ p ∈ past, HeartbeatSystem.Healthy p.2 ∧
      readHeartbeat F (some (s.files.content n)) = some p.1.now := by
  intro n hn
  obtain ⟨p, hp, hhealthy, heq⟩ :=
    exists_healthy_of_mem h ((sound_files h).readers n hn)
  exact ⟨p, hp, hhealthy, by rw [heq, readHeartbeat_repr hF]⟩

/-- The file that the reader has open is complete, although the next write was killed. -/
theorem readHeartbeat_opened_passes : ∃ past s, HeartbeatRun WallClock.floats past s ∧
    ∃ p ∈ past, HeartbeatSystem.Healthy p.2 ∧
      readHeartbeat WallClock.floats (some (s.files.content 0)) = some p.1.now := by
  obtain ⟨past, s, h, _, hreaders, _⟩ := WallClock.exists_passes
  exact ⟨past, s, h, readHeartbeat_opened WallClock.floats_lawful h 0 (by simp [hreaders])⟩

/-- The write of a pass at `t` has been completed, and the directory not wiped since. -/
def CompletedWrite (F : Floats τ) (past : List (HeartbeatSystem τ × HeartbeatAction τ)) (t : τ) :
    Prop :=
  F.repr t ∈ standing (filePast F past)

/-- While the clock goes forward, the newest completed write is the latest one, and the one
under way is later than all of them. -/
structure Chronological (F : Floats τ) (past : List (HeartbeatSystem τ × HeartbeatAction τ))
    (s : HeartbeatSystem τ) : Prop where
  now : ∀ t, CompletedWrite F past t → t ≤ s.now
  pending : ∀ g, s.files.writer () = some g → ∃ t, g.bytes = F.repr t ∧ t ≤ s.now ∧
    ∀ u, CompletedWrite F past u → u ≤ t
  newest : ∀ t, (standing (filePast F past)).head? = some (F.repr t) →
    ∀ u, CompletedWrite F past u → u ≤ t
  texts : ∀ b ∈ standing (filePast F past), ∃ t, b = F.repr t

/-- No two times have the same text. -/
theorem Floats.Lawful.repr_inj (hF : F.Lawful) {t u : τ} (h : F.repr t = F.repr u) : t = u := by
  have ht := hF.float_repr t
  rw [h, hF.float_repr u] at ht
  exact (Option.some.inj ht).symm

omit [Preorder τ] in
/-- The steps on the files behind one action more. -/
theorem filePast_cons : filePast F ((s, a) :: past) =
    ((s.fileAction F a).map fun b ↦ (s.files, b)).toList ++ filePast F past := by
  rw [filePast, List.filterMap_cons]
  cases s.fileAction F a <;> rfl

omit [Preorder τ] in
/-- An action that completes and wipes nothing leaves what stands. -/
theorem standing_filePast_of_keeps
    (h : ∀ b, s.fileAction F a = some b → b.wipes = false ∧ s.files.replaced b = none) :
    standing (filePast F ((s, a) :: past)) = standing (filePast F past) := by
  rw [filePast_cons]
  cases hb : s.fileAction F a with
  | none => rfl
  | some b => exact standing_cons_of_none (h b hb).1 (h b hb).2

/-- An action that completes and wipes nothing, and lets the writer go on or stop. -/
theorem Chronological.keep (h : Chronological F past s) (hle : s.now ≤ s'.now)
    (hstand : standing (filePast F ((s, a) :: past)) = standing (filePast F past))
    (hwriter : ∀ g, s'.files.writer () = some g →
      ∃ g', s.files.writer () = some g' ∧ g.bytes = g'.bytes) :
    Chronological F ((s, a) :: past) s' := by
  have hold {t : τ} (ht : CompletedWrite F ((s, a) :: past) t) : CompletedWrite F past t := by
    rwa [CompletedWrite, hstand] at ht
  constructor
  · exact fun t ht ↦ (h.now t (hold ht)).trans hle
  · intro g hg
    obtain ⟨g', hg', heq⟩ := hwriter g hg
    obtain ⟨t, ht, hnow, hall⟩ := h.pending g' hg'
    exact ⟨t, heq.trans ht, hnow.trans hle, fun u hu ↦ hall u (hold hu)⟩
  · intro t ht u hu
    rw [hstand] at ht
    exact h.newest t ht u (hold hu)
  · rw [hstand]
    exact h.texts

/-- A write that is completed becomes the newest one. -/
theorem Chronological.replace (hF : F.Lawful) {g : Handle Char} (h : Chronological F past s)
    (hg : s.files.writer () = some g) : Chronological F ((s, .replace) :: past)
      { files := s.files.replace (), now := s.now } := by
  obtain ⟨t, ht, hnow, hall⟩ := h.pending g hg
  have hstand : standing (filePast F ((s, .replace) :: past)) =
      F.repr t :: standing (filePast F past) := by
    rw [filePast_cons, ← ht]
    exact standing_cons_of_some (by rw [Files.replaced, hg, Option.map_some])
  have hle (u : τ) (hu : CompletedWrite F ((s, .replace) :: past) u) : u ≤ t := by
    rw [CompletedWrite, hstand] at hu
    rcases List.mem_cons.mp hu with hu | hu
    · rw [hF.repr_inj hu]
    · exact hall u hu
  constructor
  · exact fun u hu ↦ (hle u hu).trans hnow
  · intro f hf
    simp at hf
  · intro u hu v hv
    rw [hstand, List.head?_cons, Option.some.injEq] at hu
    exact hF.repr_inj hu ▸ hle v hv
  · intro b hb
    rw [hstand] at hb
    rcases List.mem_cons.mp hb with rfl | hb
    · exact ⟨t, rfl⟩
    · exact h.texts b hb

/-- A healthy pass begins a write that is later than all completed ones. -/
theorem Chronological.openTemporary {fleet : FleetHealth} {monotonic : Time}
    (h : Chronological F past s) (hhealthy : fleet.fleetIsDegraded monotonic = false) :
    Chronological F ((s, .updateHeartbeat fleet monotonic) :: past)
      { files := s.files.openTemporary () (F.repr s.now), now := s.now } := by
  have hstand : standing (filePast F ((s, .updateHeartbeat fleet monotonic) :: past)) =
      standing (filePast F past) := by
    apply standing_filePast_of_keeps
    intro b hb
    rw [HeartbeatSystem.fileAction, hhealthy, if_neg Bool.false_ne_true] at hb
    cases hb
    exact ⟨rfl, rfl⟩
  have hold {t : τ} (ht : CompletedWrite F ((s, .updateHeartbeat fleet monotonic) :: past) t) :
      CompletedWrite F past t := by
    rwa [CompletedWrite, hstand] at ht
  constructor
  · exact fun t ht ↦ h.now t (hold ht)
  · intro g hg
    simp only [Files.writer_openTemporary, Function.update_self, Option.some.injEq] at hg
    subst hg
    exact ⟨s.now, rfl, le_rfl, fun u hu ↦ h.now u (hold hu)⟩
  · intro t ht u hu
    rw [hstand] at ht
    exact h.newest t ht u (hold hu)
  · rw [hstand]
    exact h.texts

/-- Writes stay in the order of the clock. -/
theorem Chronological.next (hF : F.Lawful) (h : Chronological F past s) (ha : s.Forward a)
    (hs : s.next F a = some s') : Chronological F ((s, a) :: past) s' := by
  have hquiet (b : Action Unit Char) (hb : s.fileAction F a = some b)
      (hw : b.wipes = false) (hr : s.files.replaced b = none) :
      standing (filePast F ((s, a) :: past)) = standing (filePast F past) := by
    apply standing_filePast_of_keeps
    intro b' hb'
    rw [hb, Option.some.injEq] at hb'
    exact hb' ▸ ⟨hw, hr⟩
  cases a with
  | setClock now =>
    cases hs
    exact h.keep ha (standing_filePast_of_keeps fun b hb ↦ by cases hb) fun g hg ↦ ⟨g, hg, rfl⟩
  | updateHeartbeat fleet monotonic =>
    cases hd : fleet.fleetIsDegraded monotonic with
    | true =>
      have hnone : s.fileAction F (.updateHeartbeat fleet monotonic) = none := by
        rw [HeartbeatSystem.fileAction, hd, if_pos rfl]
      rw [HeartbeatSystem.next, hnone] at hs
      cases hs
      refine h.keep le_rfl (standing_filePast_of_keeps fun b hb ↦ ?_) fun g hg ↦ ⟨g, hg, rfl⟩
      rw [hnone] at hb
      cases hb
    | false =>
      have hsome : s.fileAction F (.updateHeartbeat fleet monotonic) =
          some (.openTemporary () (F.repr s.now)) := by
        rw [HeartbeatSystem.fileAction, hd, if_neg Bool.false_ne_true]
      rw [HeartbeatSystem.next, hsome] at hs
      obtain ⟨files, hfiles, rfl⟩ := Option.map_eq_some_iff.mp hs
      rw [Files.next] at hfiles
      split at hfiles
      · cases hfiles
        exact h.openTemporary hd
      · cases hfiles
  | flush n =>
    obtain ⟨files, hfiles, rfl⟩ := Option.map_eq_some_iff.mp hs
    obtain ⟨g, hg, rfl⟩ := Option.map_eq_some_iff.mp hfiles
    refine h.keep le_rfl (hquiet _ rfl rfl rfl) fun f hf ↦ ⟨g, hg, ?_⟩
    simp only [Files.writer_flush, Function.update_self, Option.some.injEq] at hf
    rw [← hf]
  | replace =>
    obtain ⟨files, hfiles, rfl⟩ := Option.map_eq_some_iff.mp hs
    obtain ⟨g, hg, hfiles⟩ := Option.bind_eq_some_iff.mp hfiles
    obtain ⟨_, hfiles⟩ := Option.ite_none_right_eq_some.mp hfiles
    cases hfiles
    exact h.replace hF hg
  | crash =>
    cases hs
    refine h.keep le_rfl (hquiet _ rfl rfl rfl) fun f hf ↦ ?_
    simp at hf
  | wipe =>
    cases hs
    have hnone (b : List Char) (hb : b ∈ standing (filePast F ((s, .wipe) :: past))) : False := by
      cases hb
    constructor
    · exact fun t ht ↦ (hnone _ ht).elim
    · exact fun g hg ↦ by cases hg
    · exact fun t _ u hu ↦ (hnone _ hu).elim
    · exact fun b hb ↦ (hnone b hb).elim
  | openFile =>
    obtain ⟨files, hfiles, rfl⟩ := Option.map_eq_some_iff.mp hs
    obtain ⟨n, _, rfl⟩ := Option.map_eq_some_iff.mp hfiles
    exact h.keep le_rfl (hquiet _ rfl rfl rfl) fun f hf ↦ ⟨f, hf, rfl⟩

/-- Writes are in the order of the clock in every run in which it goes forward. -/
theorem chronological (hF : F.Lawful) (h : HeartbeatRun F past s)
    (hforward : Guarded HeartbeatSystem.Forward past) : Chronological F past s := by
  induction h with
  | start h =>
    constructor
    · exact fun t ht ↦ by cases ht
    · intro g hg
      rw [h] at hg
      cases hg
    · exact fun t _ u hu ↦ by cases hu
    · exact fun b hb ↦ by cases hb
  | step _ hs ih =>
    obtain ⟨ha, hforward⟩ := guarded_cons.mp hforward
    exact (ih hforward).next hF ha hs

/-- A completed write was begun by a healthy pass at that time. -/
theorem exists_healthy_of_completed (hF : F.Lawful) (h : HeartbeatRun F past s) {t : τ}
    (ht : CompletedWrite F past t) : ∃ p ∈ past, HeartbeatSystem.Healthy p.2 ∧ p.1.now = t := by
  obtain ⟨p, hp, hhealthy, heq⟩ := exists_healthy_of_mem h (standing_subset ht)
  exact ⟨p, hp, hhealthy, (hF.repr_inj heq).symm⟩

/-- **The healthcheck is truthful**: while the clock goes forward, it succeeds exactly when
the supervisor has made a healthy pass within the maximum age whose write was completed and
not wiped. -/
theorem isFresh_iff (hF : F.Lawful) (h : HeartbeatRun F past s)
    (hforward : Guarded HeartbeatSystem.Forward past) (maxAge : τ) :
    isFresh F s.file maxAge s.now = true ↔
      ∃ p ∈ past, HeartbeatSystem.Healthy p.2 ∧ CompletedWrite F past p.1.now ∧
        F.isYounger s.now p.1.now maxAge = true := by
  have hchron := chronological hF h hforward
  have hfile : s.file = (standing (filePast F past)).head? := (sound_files h).target
  rw [isFresh, hfile]
  cases hhead : (standing (filePast F past)).head? with
  | none =>
    have hnone : ∀ t, ¬ CompletedWrite F past t := by
      intro t ht
      rw [CompletedWrite, List.head?_eq_none_iff.mp hhead] at ht
      cases ht
    constructor
    · exact fun hfresh ↦ by cases hfresh
    · rintro ⟨p, _, _, hp, _⟩
      exact absurd hp (hnone p.1.now)
  | some b =>
    obtain ⟨t, rfl⟩ := hchron.texts b (List.mem_of_mem_head? hhead)
    rw [readHeartbeat_repr hF]
    constructor
    · intro hyounger
      have hcompleted : CompletedWrite F past t := List.mem_of_mem_head? hhead
      obtain ⟨p, hp, hhealthy, rfl⟩ := exists_healthy_of_completed hF h hcompleted
      exact ⟨p, hp, hhealthy, hcompleted, hyounger⟩
    · rintro ⟨p, _, _, hp, hyounger⟩
      exact hF.younger_mono _ _ _ t (hchron.newest t hhead _ hp) hyounger

/-- The first write was completed within the last minute. -/
theorem isFresh_iff_passes : ∃ past s, HeartbeatRun WallClock.floats past s ∧
    ∃ p ∈ past, HeartbeatSystem.Healthy p.2 ∧ CompletedWrite WallClock.floats past p.1.now ∧
      WallClock.floats.isYounger s.now p.1.now (WallClock.ofSeconds 60) = true := by
  obtain ⟨past, s, h, hforward, _, hfresh⟩ := WallClock.exists_passes
  exact ⟨past, s, h, (isFresh_iff WallClock.floats_lawful h hforward _).mp hfresh⟩

end Runs

end JobWorker
