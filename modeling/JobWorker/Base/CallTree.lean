import Mathlib.Data.List.Nodup
import Mathlib.Order.BooleanAlgebra.Set

/-!
# Recursive procedures by their calls

The body of a recursive procedure as a tree: what it calls itself for, and how it goes on with
the answer. Run with fuel a call ends exactly if no descent along its calls is without end.
-/

/-- A piece of a procedure from queries `Q` to answers `A`: it ends with a value or an exception,
makes a note, or asks the procedure and goes on with the answer. -/
inductive CallTree (Q A ε ω α : Type)
  | done (out : Except ε α)
  | note (w : ω) (t : CallTree Q A ε ω α)
  | ask (q : Q) (k : A → CallTree Q A ε ω α)

namespace CallTree

variable {Q A ε ω α β : Type}

/-- One piece after the other. -/
protected def bind : CallTree Q A ε ω α → (α → CallTree Q A ε ω β) → CallTree Q A ε ω β
  | done (.ok a), f => f a
  | done (.error e), _ => done (.error e)
  | note w t, f => note w (t.bind f)
  | ask q k, f => ask q fun a ↦ (k a).bind f

instance : Monad (CallTree Q A ε ω) where
  pure a := done (.ok a)
  bind := CallTree.bind

@[simp] theorem pure_bind (a : α) (f : α → CallTree Q A ε ω β) : (pure a >>= f) = f a := rfl

@[simp] theorem note_bind (w : ω) (t : CallTree Q A ε ω α) (f : α → CallTree Q A ε ω β) :
    (note w t >>= f) = note w (t >>= f) := rfl

@[simp] theorem ask_bind (q : Q) (k : A → CallTree Q A ε ω α) (f : α → CallTree Q A ε ω β) :
    (ask q k >>= f) = ask q fun a ↦ k a >>= f := rfl

@[simp] theorem error_bind (e : ε) (f : α → CallTree Q A ε ω β) :
    ((done (.error e) : CallTree Q A ε ω α) >>= f) = done (.error e) := rfl

/-! ### Running a procedure -/

/-- The notes and the outcome, given those of every query. -/
def eval (f : Q → List ω × Option (Except ε A)) :
    CallTree Q A ε ω α → List ω × Option (Except ε α)
  | done out => ([], some out)
  | note w t => (w :: (t.eval f).1, (t.eval f).2)
  | ask q k =>
    match f q with
    | (notes, none) => (notes, none)
    | (notes, some (.error e)) => (notes, some (.error e))
    | (notes, some (.ok a)) => (notes ++ ((k a).eval f).1, ((k a).eval f).2)

/-- A procedure with a depth of recursion. -/
def recurse (body : Q → CallTree Q A ε ω A) : Nat → Q → List ω × Option (Except ε A)
  | 0, _ => ([], none)
  | fuel + 1, q => (body q).eval (recurse body fuel)

/-- The outcome of one piece after the other. -/
theorem eval_bind (f : Q → List ω × Option (Except ε A)) (t : CallTree Q A ε ω α)
    (g : α → CallTree Q A ε ω β) : ((t >>= g).eval f).2 = match (t.eval f).2 with
      | none => none
      | some (.error e) => some (.error e)
      | some (.ok a) => ((g a).eval f).2 := by
  induction t with
  | done out => cases out <;> rfl
  | note w t ih => exact ih
  | ask q k ih =>
    rw [ask_bind, eval, eval]
    rcases f q with ⟨notes, _ | _ | a⟩
    · rfl
    · rfl
    · exact ih a

theorem eq_of_snd {p : List ω × Option (Except ε α)} {o : Option (Except ε α)} (h : p.2 = o) :
    p = (p.1, o) := Prod.ext rfl h

section Recursion

variable {body : Q → CallTree Q A ε ω A} {t : CallTree Q A ε ω α} {g : α → CallTree Q A ε ω β}
  {q q' : Q} {a : A}

/-- What ends with some answers ends alike with more of them. -/
theorem eval_mono {f f' : Q → List ω × Option (Except ε A)}
    (h : ∀ q notes out, f q = (notes, some out) → f' q = (notes, some out))
    {notes : List ω} {out : Except ε α} (ht : t.eval f = (notes, some out)) :
    t.eval f' = (notes, some out) := by
  induction t generalizing notes with
  | done out' => exact ht
  | note w t ih =>
    rw [eval] at ht ⊢
    have hnotes : w :: (t.eval f).1 = notes := congrArg Prod.fst ht
    rw [ih (eq_of_snd (congrArg Prod.snd ht)), hnotes]
  | ask q k ih =>
    rw [eval] at ht
    rcases hq : f q with ⟨notes', _ | _ | a⟩
    · rw [hq] at ht
      cases ht
    · rw [hq] at ht
      rw [eval, h q _ _ hq]
      exact ht
    · rw [hq] at ht
      rw [eval, h q _ _ hq]
      dsimp only at ht ⊢
      have hnotes : notes' ++ ((k a).eval f).1 = notes := congrArg Prod.fst ht
      rw [ih a (eq_of_snd (congrArg Prod.snd ht)), hnotes]

/-- A call that ends does so with every greater depth. -/
theorem recurse_mono {fuel fuel' : Nat} (hle : fuel ≤ fuel') {notes : List ω}
    {out : Except ε A} (h : recurse body fuel q = (notes, some out)) :
    recurse body fuel' q = (notes, some out) := by
  induction fuel generalizing fuel' q notes out with
  | zero => cases h
  | succ fuel ih =>
    cases fuel' with
    | zero => omega
    | succ fuel' => exact eval_mono (fun _ _ _ ↦ ih (Nat.le_of_succ_le_succ hle)) h

/-- The call returns or raises. -/
def Ends (body : Q → CallTree Q A ε ω A) (q : Q) : Prop :=
  ∃ fuel notes out, recurse body fuel q = (notes, some out)

/-- The call returns `a`. -/
def Answers (body : Q → CallTree Q A ε ω A) (q : Q) (a : A) : Prop :=
  ∃ fuel notes, recurse body fuel q = (notes, some (.ok a))

/-- A call returns one answer. -/
theorem Answers.unique {fuel : Nat} {notes : List ω} {out : Except ε A} (h : Answers body q a)
    (h' : recurse body fuel q = (notes, some out)) : out = .ok a := by
  obtain ⟨fuel', notes', h⟩ := h
  have hmax := recurse_mono (Nat.le_max_left fuel fuel') h'
  rw [recurse_mono (Nat.le_max_right fuel fuel') h] at hmax
  cases hmax
  rfl

/-! ### The calls of a piece -/

/-- The piece asks the query, where the queries before it get answers of `ans`. -/
inductive Asks (ans : Q → A → Prop) : CallTree Q A ε ω α → Q → Prop
  | here {q : Q} {k : A → CallTree Q A ε ω α} : Asks ans (ask q k) q
  | later {q q' : Q} {a : A} {k : A → CallTree Q A ε ω α} : ans q a → Asks ans (k a) q' →
      Asks ans (ask q k) q'
  | note {w : ω} {t : CallTree Q A ε ω α} {q : Q} : Asks ans t q → Asks ans (note w t) q

/-- The piece returns the value, where its queries get answers of `ans`. -/
inductive Yields (ans : Q → A → Prop) : CallTree Q A ε ω α → α → Prop
  | done {a : α} : Yields ans (done (.ok a)) a
  | ask {q : Q} {a : A} {k : A → CallTree Q A ε ω α} {b : α} : ans q a → Yields ans (k a) b →
      Yields ans (ask q k) b
  | note {w : ω} {t : CallTree Q A ε ω α} {a : α} : Yields ans t a → Yields ans (note w t) a

/-- The call for `q` calls the procedure for `q'`. -/
def Calls (body : Q → CallTree Q A ε ω A) (q q' : Q) : Prop :=
  Asks (Answers body) (body q) q'

variable {ans : Q → A → Prop}

/-- The queries of one piece after the other. -/
theorem asks_bind : Asks ans (t >>= g) q ↔
    Asks ans t q ∨ ∃ a, Yields ans t a ∧ Asks ans (g a) q := by
  constructor
  · intro h
    induction t with
    | done out =>
      cases out with
      | error e => cases h
      | ok a => exact .inr ⟨a, .done, h⟩
    | note w t ih =>
      cases h with
      | note h =>
        rcases ih h with h | ⟨a, ha, h⟩
        · exact .inl (.note h)
        · exact .inr ⟨a, .note ha, h⟩
    | ask q k ih =>
      cases h with
      | here => exact .inl .here
      | later hq h =>
        rcases ih _ h with h | ⟨a, ha, h⟩
        · exact .inl (.later hq h)
        · exact .inr ⟨a, .ask hq ha, h⟩
  · rintro (h | ⟨a, ha, h⟩)
    · induction h with
      | here => exact .here
      | later hq _ ih => exact .later hq ih
      | note _ ih => exact .note ih
    · induction ha with
      | done => exact h
      | ask hq _ ih => exact .later hq (ih h)
      | note _ ih => exact .note (ih h)

/-- The values of one piece after the other. -/
theorem yields_bind {b : β} : Yields ans (t >>= g) b ↔
    ∃ a, Yields ans t a ∧ Yields ans (g a) b := by
  constructor
  · intro h
    induction t with
    | done out =>
      cases out with
      | error e => cases h
      | ok a => exact ⟨a, .done, h⟩
    | note w t ih =>
      cases h with
      | note h =>
        obtain ⟨a, ha, h⟩ := ih h
        exact ⟨a, .note ha, h⟩
    | ask q k ih =>
      cases h with
      | ask hq h =>
        obtain ⟨a, ha, h⟩ := ih _ h
        exact ⟨a, .ask hq ha, h⟩
  · rintro ⟨a, ha, h⟩
    induction ha with
    | done => exact h
    | ask hq _ ih => exact .ask hq (ih h)
    | note _ ih => exact .note (ih h)

/-- A piece that is evaluated to a value returns it. -/
theorem yields_of_eval {f : Q → List ω × Option (Except ε A)}
    (hf : ∀ q notes a, f q = (notes, some (.ok a)) → ans q a) {notes : List ω} {b : α}
    (h : t.eval f = (notes, some (.ok b))) : Yields ans t b := by
  induction t generalizing notes with
  | done out =>
    cases h
    exact .done
  | note w t ih => exact .note (ih (eq_of_snd (congrArg Prod.snd h)))
  | ask q k ih =>
    rw [eval] at h
    rcases hq : f q with ⟨notes', _ | _ | a⟩
    · rw [hq] at h
      cases h
    · rw [hq] at h
      cases h
    · rw [hq] at h
      exact .ask (hf q notes' a hq) (ih a (eq_of_snd (congrArg Prod.snd h)))

/-- The call returns what its body returns. -/
theorem yields_of_answers (h : Answers body q a) : Yields (Answers body) (body q) a := by
  obtain ⟨fuel, notes, h⟩ := h
  cases fuel with
  | zero => cases h
  | succ fuel => exact yields_of_eval (fun q notes a hq ↦ ⟨fuel, notes, hq⟩) h

/-- A query that is answered, and the piece that goes on with the answer. -/
theorem exists_eval_ask {k : A → CallTree Q A ε ω α} (hq : Answers body q a)
    {out : Except ε α} (hk : ∃ fuel notes, (k a).eval (recurse body fuel) = (notes, some out)) :
    ∃ fuel notes, (ask q k).eval (recurse body fuel) = (notes, some out) := by
  obtain ⟨fuel, notes, hq⟩ := hq
  obtain ⟨fuel', notes', hk⟩ := hk
  refine ⟨max fuel fuel', notes ++ notes', ?_⟩
  rw [eval, recurse_mono (Nat.le_max_left _ _) hq]
  dsimp only
  rw [eval_mono (fun _ _ _ ↦ recurse_mono (Nat.le_max_right _ _)) hk]

/-- The call returns what its body returns, and nothing else. -/
theorem answers_iff_yields : Answers body q a ↔ Yields (Answers body) (body q) a := by
  have heval {t : CallTree Q A ε ω A} (h : Yields (Answers body) t a) :
      ∃ fuel notes, t.eval (recurse body fuel) = (notes, some (.ok a)) := by
    induction h with
    | done => exact ⟨0, [], rfl⟩
    | ask hq _ ih => exact exists_eval_ask hq ih
    | @note w t a _ ih =>
      obtain ⟨fuel, notes, ht⟩ := ih
      exact ⟨fuel, w :: notes, by rw [eval, ht]⟩
  refine ⟨yields_of_answers, fun h ↦ ?_⟩
  obtain ⟨fuel, notes, h⟩ := heval h
  exact ⟨fuel + 1, notes, h⟩

/-- A piece whose queries end comes to an end itself. -/
theorem exists_eval (h : ∀ q, Asks (Answers body) t q → Ends body q) :
    ∃ out fuel notes, t.eval (recurse body fuel) = (notes, some out) := by
  induction t with
  | done out => exact ⟨out, 0, [], rfl⟩
  | note w t ih =>
    obtain ⟨out, fuel, notes, ht⟩ := ih fun q hq ↦ h q (.note hq)
    exact ⟨out, fuel, w :: notes, by rw [eval, ht]⟩
  | ask q k ih =>
    obtain ⟨fuel, notes, out, hq⟩ := h q .here
    cases out with
    | error e => exact ⟨.error e, fuel, notes, by rw [eval, hq]⟩
    | ok a =>
      obtain ⟨out, hk⟩ := ih a fun q' hq' ↦ h q' (.later ⟨fuel, notes, hq⟩ hq')
      exact ⟨out, exists_eval_ask ⟨fuel, notes, hq⟩ hk⟩

/-- The queries of a piece that comes to an end do so themselves. -/
theorem exists_recurse_of_asks {fuel : Nat} {notes : List ω} {out : Except ε α}
    (ht : t.eval (recurse body fuel) = (notes, some out)) (h : Asks (Answers body) t q) :
    ∃ notes out, recurse body fuel q = (notes, some out) := by
  induction h generalizing notes with
  | @here q k =>
    rw [eval] at ht
    rcases hq : recurse body fuel q with ⟨notes', _ | out'⟩
    · rw [hq] at ht
      cases ht
    · exact ⟨notes', out', rfl⟩
  | @later q q' a k ha _ ih =>
    rw [eval] at ht
    rcases hq : recurse body fuel q with ⟨notes', _ | out'⟩
    · rw [hq] at ht
      cases ht
    · obtain rfl := ha.unique hq
      rw [hq] at ht
      exact ih (eq_of_snd (congrArg Prod.snd ht))
  | note _ ih => exact ih (eq_of_snd (congrArg Prod.snd ht))

/-- A call ends exactly if there is no endless descent along the calls below it. -/
theorem ends_iff_acc : Ends body q ↔ Acc (fun q' q ↦ Calls body q q') q := by
  constructor
  · rintro ⟨fuel, notes, out, h⟩
    induction fuel generalizing q notes out with
    | zero => cases h
    | succ fuel ih =>
      refine Acc.intro q fun q' hq' ↦ ?_
      obtain ⟨notes', out', h'⟩ := exists_recurse_of_asks h hq'
      exact ih _ _ h'
  · intro h
    induction h with
    | intro q _ ih =>
      obtain ⟨out, fuel, notes, h⟩ := exists_eval ih
      exact ⟨fuel + 1, notes, out, h⟩

/-! ### Rules -/

/-- Every query of the piece meets `C`, and every value meets `P`, where the answers to queries
meet `R`. -/
def Meets (C : Q → Prop) (R : Q → A → Prop) (P : α → Prop) : CallTree Q A ε ω α → Prop
  | done (.ok a) => P a
  | done (.error _) => True
  | note _ t => t.Meets C R P
  | ask q k => C q ∧ ∀ a, R q a → (k a).Meets C R P

variable {C : Q → Prop} {R : Q → A → Prop} {P : α → Prop}

/-- One piece after the other. -/
theorem Meets.bind {P' : β → Prop} (h : t.Meets C R P) (hg : ∀ a, P a → (g a).Meets C R P') :
    (t >>= g).Meets C R P' := by
  induction t with
  | done out =>
    cases out with
    | error e => trivial
    | ok a => exact hg a h
  | note w t ih => exact ih h
  | ask q k ih => exact ⟨h.1, fun a ha ↦ ih a (h.2 a ha)⟩

/-- Less is met. -/
theorem Meets.mono {C' : Q → Prop} {P' : α → Prop} (h : t.Meets C R P) (hC : ∀ q, C q → C' q)
    (hP : ∀ a, P a → P' a) : t.Meets C' R P' := by
  induction t with
  | done out =>
    cases out with
    | error e => trivial
    | ok a => exact hP a h
  | note w t ih => exact ih h
  | ask q k ih => exact ⟨hC q h.1, fun a ha ↦ ih a (h.2 a ha)⟩

/-- The values of a piece. -/
theorem Meets.yields (h : t.Meets C R P) (hans : ∀ q a, ans q a → R q a) {a : α}
    (ha : Yields ans t a) : P a := by
  induction ha with
  | done => exact h
  | ask hq _ ih => exact ih (h.2 _ (hans _ _ hq))
  | note _ ih => exact ih h

/-- The queries of a piece. -/
theorem Meets.asks (h : t.Meets C R P) (hans : ∀ q a, ans q a → R q a) (hq : Asks ans t q) :
    C q := by
  induction hq with
  | here => exact h.1
  | later hq _ ih => exact ih (h.2 _ (hans _ _ hq))
  | note _ ih => exact ih h

/-- Answers meet what every body turns into a property of its values. -/
theorem Answers.meets {C : Q → Q → Prop} (hbody : ∀ q, (body q).Meets (C q) R (R q))
    (h : Answers body q a) : R q a := by
  obtain ⟨fuel, notes, h⟩ := h
  induction fuel generalizing q a notes with
  | zero => cases h
  | succ fuel ih =>
    let ans (q : Q) (a : A) : Prop := ∃ notes, recurse body fuel q = (notes, some (.ok a))
    have hyields : Yields ans (body q) a := yields_of_eval (fun q notes a hq ↦ ⟨notes, hq⟩) h
    exact (hbody q).yields (fun q a ⟨_, hq⟩ ↦ ih _ hq) hyields

/-- Calls meet what every body guarantees for its queries. -/
theorem Calls.meets {C : Q → Q → Prop} (hbody : ∀ q, (body q).Meets (C q) R (R q))
    (h : Calls body q q') : C q q' :=
  (hbody q).asks (fun _ _ ↦ Answers.meets hbody) h

/-! ### Notes that are made once -/

/-- The piece takes its notes from `U`, each one once, and leaves `V a` behind with the value `a`.
A query takes from `avail`, and leaves `left` behind. -/
def Spends (avail : Q → Set ω) (left : A → Set ω) (V : α → Set ω) :
    CallTree Q A ε ω α → Set ω → Prop
  | done (.ok a), U => V a ⊆ U
  | done (.error _), _ => True
  | note w t, U => w ∈ U ∧ t.Spends avail left V (U \ {w})
  | ask q k, U => avail q ⊆ U ∧ ∀ a, left a ⊆ avail q → (k a).Spends avail left V (left a)

variable {avail : Q → Set ω} {left : A → Set ω} {V : α → Set ω} {U : Set ω}

/-- What suffices is still enough when there is more. -/
theorem Spends.mono {U' : Set ω} (h : t.Spends avail left V U) (hU : U ⊆ U') :
    t.Spends avail left V U' := by
  induction t generalizing U U' with
  | done out =>
    cases out with
    | error e => trivial
    | ok a => exact fun w hw ↦ hU (h hw)
  | note w t ih => exact ⟨hU h.1, ih h.2 (Set.sdiff_subset_sdiff_left hU)⟩
  | ask q k _ => exact ⟨fun w hw ↦ hU (h.1 hw), h.2⟩

/-- One piece after the other. -/
theorem Spends.bind {V' : β → Set ω} (h : t.Spends avail left V U)
    (hg : ∀ a, V a ⊆ U → (g a).Spends avail left V' (V a)) :
    (t >>= g).Spends avail left V' U := by
  induction t generalizing U with
  | done out =>
    cases out with
    | error e => trivial
    | ok a => exact (hg a h).mono h
  | note w t ih => exact ⟨h.1, ih h.2 fun a ha ↦ hg a (ha.trans Set.sdiff_subset)⟩
  | ask q k ih => exact ⟨h.1, fun a ha ↦ ih a (h.2 a ha) fun b hb ↦
      hg b (hb.trans (ha.trans h.1))⟩

/-- The notes of a piece are distinct elements of `U`, and none of them is left behind. -/
structure TakenFrom (U : Set ω) (V : α → Set ω) (run : List ω × Option (Except ε α)) : Prop where
  nodup : run.1.Nodup
  mem : ∀ w ∈ run.1, w ∈ U
  left : ∀ a, run.2 = some (.ok a) → V a ⊆ U ∧ ∀ w ∈ run.1, w ∉ V a

/-- A piece whose queries take their notes from what is available takes its own from `U`. -/
theorem Spends.takenFrom {f : Q → List ω × Option (Except ε A)}
    (hf : ∀ q, TakenFrom (avail q) left (f q)) (h : t.Spends avail left V U) :
    TakenFrom U V (t.eval f) := by
  induction t generalizing U with
  | done out =>
    refine ⟨.nil, nofun, fun a ha ↦ ?_⟩
    obtain rfl : out = .ok a := Option.some.inj ha
    exact ⟨h, nofun⟩
  | note w t ih =>
    have ht := ih h.2
    refine ⟨List.nodup_cons.mpr ⟨fun hw ↦ (ht.mem w hw).2 rfl, ht.nodup⟩, ?_, fun a ha ↦ ?_⟩
    · intro v hv
      rcases List.mem_cons.mp hv with rfl | hv
      · exact h.1
      · exact (ht.mem v hv).1
    · obtain ⟨hV, hleft⟩ := ht.left a ha
      refine ⟨hV.trans Set.sdiff_subset, fun v hv ↦ ?_⟩
      rcases List.mem_cons.mp hv with rfl | hv
      · exact fun hv ↦ (hV hv).2 rfl
      · exact hleft v hv
  | ask q k ih =>
    have hq := hf q
    rw [eval]
    generalize f q = run at hq ⊢
    rcases run with ⟨notes, _ | _ | a⟩
    · exact ⟨hq.nodup, fun w hw ↦ h.1 (hq.mem w hw), nofun⟩
    · exact ⟨hq.nodup, fun w hw ↦ h.1 (hq.mem w hw), nofun⟩
    · obtain ⟨hsub, hleft⟩ := hq.left a rfl
      have hk := ih a (h.2 a hsub)
      refine ⟨List.nodup_append.mpr ⟨hq.nodup, hk.nodup, ?_⟩, fun w hw ↦ ?_, fun b hb ↦ ?_⟩
      · rintro w hw v hv rfl
        exact hleft w hw (hk.mem w hv)
      · rcases List.mem_append.mp hw with hw | hw
        · exact h.1 (hq.mem w hw)
        · exact h.1 (hsub (hk.mem w hw))
      · obtain ⟨hV, hV'⟩ := hk.left b hb
        refine ⟨hV.trans (hsub.trans h.1), fun w hw ↦ ?_⟩
        rcases List.mem_append.mp hw with hw | hw
        · exact fun hv ↦ hleft w hw (hV hv)
        · exact hV' w hw

/-- A procedure whose bodies take every note from what is available makes each one once, at
every depth of recursion. -/
theorem takenFrom_recurse (hbody : ∀ q, (body q).Spends avail left left (avail q)) (fuel : Nat)
    (q : Q) : TakenFrom (avail q) left (recurse body fuel q) := by
  induction fuel generalizing q with
  | zero => exact ⟨.nil, nofun, nofun⟩
  | succ fuel ih => exact (hbody q).takenFrom ih

end Recursion

end CallTree
