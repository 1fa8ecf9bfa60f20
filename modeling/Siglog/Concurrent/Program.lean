import Mathlib.Logic.Relation
import Mathlib.Tactic.Common

/-! Programs over atomic operations. A program ends with a value, fails with an
error, or performs one operation and continues with its answer. The operations
are a parameter, so that one program can be run against a fixed environment,
against an environment that answers arbitrarily within a contract, or one
operation at a time in a system of many threads. -/

namespace Siglog.Concurrent

inductive Prog (O : Type) (R : O → Type) (ε α : Type) where
  | pure (a : α)
  | fail (e : ε)
  | op (o : O) (k : R o → Prog O R ε α)

namespace Prog

variable {O P : Type} {R : O → Type} {T : P → Type} {ε α β γ : Type}

def bind : Prog O R ε α → (α → Prog O R ε β) → Prog O R ε β
  | .pure a, f => f a
  | .fail e, _ => .fail e
  | .op o k, f => .op o (fun r => (k r).bind f)

instance : Monad (Prog O R ε) where
  pure := .pure
  bind := bind

/-- Perform one operation and return its answer. -/
def call (o : O) : Prog O R ε (R o) := .op o .pure

/-- Turn an error of the program into a value, as a `match` on a result does. -/
def attempt : Prog O R ε α → Prog O R ε (Except ε α)
  | .pure a => .pure (.ok a)
  | .fail e => .pure (.error e)
  | .op o k => .op o (fun r => (k r).attempt)

/-- `map_err`. -/
def mapErr {δ : Type} (f : ε → δ) : Prog O R ε α → Prog O R δ α
  | .pure a => .pure a
  | .fail e => .fail (f e)
  | .op o k => .op o (fun r => (k r).mapErr f)

/-- The `?` operator on a computed result. -/
def ofExcept : Except ε α → Prog O R ε α
  | .ok a => .pure a
  | .error e => .fail e

/-- Implement every operation of a program by a program over other operations. -/
def translate (f : ∀ o, Prog P T ε (R o)) : Prog O R ε α → Prog P T ε α
  | .pure a => .pure a
  | .fail e => .fail e
  | .op o k => (f o).bind (fun r => (k r).translate f)

/-- The same with a state that the implementations hand on to each other. -/
def translateWith {σ : Type} (f : σ → ∀ o, Prog P T ε (R o × σ)) :
    Prog O R ε α → σ → Prog P T ε (α × σ)
  | .pure a, s => .pure (a, s)
  | .fail e, _ => .fail e
  | .op o k, s => (f s o).bind fun (r, s) => (k r).translateWith f s

/-- Run against an environment that always gives the same answers. -/
def eval (answer : ∀ o, R o) : Prog O R ε α → Except ε α
  | .pure a => .ok a
  | .fail e => .error e
  | .op o k => (k (answer o)).eval answer

@[simp] theorem pure_eq (a : α) : (Pure.pure a : Prog O R ε α) = .pure a := rfl

@[simp] theorem bind_eq (p : Prog O R ε α) (f : α → Prog O R ε β) : p >>= f = p.bind f := rfl

@[simp] theorem pure_bind (a : α) (f : α → Prog O R ε β) : (Prog.pure a).bind f = f a := rfl

@[simp] theorem fail_bind (e : ε) (f : α → Prog O R ε β) : (Prog.fail e).bind f = .fail e := rfl

@[simp] theorem op_bind (o : O) (k : R o → Prog O R ε α) (f : α → Prog O R ε β) :
    (Prog.op o k).bind f = .op o (fun r => (k r).bind f) := rfl

@[simp] theorem ofExcept_ok (a : α) : (ofExcept (.ok a) : Prog O R ε α) = .pure a := rfl

@[simp] theorem ofExcept_error (e : ε) : (ofExcept (.error e) : Prog O R ε α) = .fail e := rfl

theorem bind_pure (p : Prog O R ε α) : p.bind .pure = p := by
  induction p with
  | pure a => rfl
  | fail e => rfl
  | op o k ih => simp only [op_bind, ih]

theorem bind_assoc (p : Prog O R ε α) (f : α → Prog O R ε β) (g : β → Prog O R ε γ) :
    (p.bind f).bind g = p.bind (fun a => (f a).bind g) := by
  induction p with
  | pure a => rfl
  | fail e => rfl
  | op o k ih => simp only [op_bind, ih]

theorem translate_bind (g : ∀ o, Prog P T ε (R o)) (p : Prog O R ε α) (f : α → Prog O R ε β) :
    (p.bind f).translate g = (p.translate g).bind fun a => (f a).translate g := by
  induction p with
  | pure a => rfl
  | fail e => rfl
  | op o k ih => simp only [op_bind, translate, bind_assoc, ih]

/-- Implementations of implementations. -/
theorem translate_translate {Q : Type} {U : Q → Type} (f : ∀ o, Prog P T ε (R o))
    (g : ∀ o, Prog Q U ε (T o))
    (p : Prog O R ε α) : (p.translate f).translate g = p.translate fun o => (f o).translate g := by
  induction p with
  | pure a => rfl
  | fail e => rfl
  | op o k ih => simp only [translate, translate_bind, ih]

/-! ### Answers within a contract -/

/-- Every run whose answers satisfy `A` ends in `Q`. -/
def Returns (A : ∀ o, R o → Prop) (Q : Except ε α → Prop) : Prog O R ε α → Prop
  | .pure a => Q (.ok a)
  | .fail e => Q (.error e)
  | .op o k => ∀ r, A o r → (k r).Returns A Q

section Returns

variable {A : ∀ o, R o → Prop}

theorem returns_any {Q : Except ε α → Prop} (p : Prog O R ε α) (h : ∀ x, Q x) : p.Returns A Q := by
  induction p with
  | pure a => exact h _
  | fail e => exact h _
  | op o k ih => exact fun r _ => ih r

theorem returns_mono {Q Q' : Except ε α → Prop} (hQ : ∀ x, Q x → Q' x) {p : Prog O R ε α}
    (h : p.Returns A Q) : p.Returns A Q' := by
  induction p with
  | pure a => exact hQ _ h
  | fail e => exact hQ _ h
  | op o k ih => exact fun r hr => ih r (h r hr)

theorem returns_contract {A' : ∀ o, R o → Prop} (hA : ∀ o r, A' o r → A o r)
    {Q : Except ε α → Prop} {p : Prog O R ε α} (h : p.Returns A Q) : p.Returns A' Q := by
  induction p with
  | pure a => exact h
  | fail e => exact h
  | op o k ih => exact fun r hr => ih r (h r (hA o r hr))

/-- What a program ends in after `p` has ended in `x`. -/
def After (A : ∀ o, R o → Prop) (f : α → Prog O R ε β) (Q : Except ε β → Prop) :
    Except ε α → Prop
  | .ok a => (f a).Returns A Q
  | .error e => Q (.error e)

theorem returns_bind {p : Prog O R ε α} {f : α → Prog O R ε β} {Q : Except ε β → Prop} :
    (p.bind f).Returns A Q ↔ p.Returns A (After A f Q) := by
  induction p with
  | pure a => rfl
  | fail e => rfl
  | op o k ih => exact forall_congr' fun r => imp_congr_right fun _ => ih r

/-- The rule for a program that succeeds. -/
theorem returns_bind_ok {p : Prog O R ε α} {f : α → Prog O R ε β} {P : α → Prop}
    {Q : Except ε β → Prop} (hp : p.Returns A (fun x => ∃ a, x = .ok a ∧ P a))
    (hf : ∀ a, P a → (f a).Returns A Q) : (p.bind f).Returns A Q := by
  rw [returns_bind]
  refine returns_mono ?_ hp
  rintro _ ⟨a, rfl, ha⟩
  exact hf a ha

/-- The rule for a program that may fail. -/
theorem returns_bind_any {p : Prog O R ε α} {f : α → Prog O R ε β} {P : α → Prop}
    {Q : Except ε β → Prop} (hp : p.Returns A (fun x => ∀ a, x = .ok a → P a))
    (he : ∀ e, Q (.error e)) (hf : ∀ a, P a → (f a).Returns A Q) : (p.bind f).Returns A Q := by
  rw [returns_bind]
  refine returns_mono ?_ hp
  intro x hx
  cases x with
  | ok a => exact hf a (hx a rfl)
  | error e => exact he e

/-- Errors under other names. -/
theorem returns_mapErr {δ : Type} {f : ε → δ} {p : Prog O R ε α} {Q : Except δ α → Prop} :
    (p.mapErr f).Returns A Q ↔ p.Returns A fun x => Q (x.mapError f) := by
  induction p with
  | pure a => rfl
  | fail e => rfl
  | op o k ih => exact forall_congr' fun r => imp_congr_right fun _ => ih r

theorem returns_ofExcept {x : Except ε α} {Q : Except ε α → Prop} :
    (ofExcept x : Prog O R ε α).Returns A Q ↔ Q x := by
  cases x with
  | ok a => rfl
  | error e => rfl

/-- The result of an attempt is a value. -/
theorem returns_attempt {p : Prog O R ε α} {Q : Except ε (Except ε α) → Prop} :
    p.attempt.Returns A Q ↔ p.Returns A fun x => Q (.ok x) := by
  induction p with
  | pure a => rfl
  | fail e => rfl
  | op o k ih => exact forall_congr' fun r => imp_congr_right fun _ => ih r

/-- A fixed environment is one that answers within the contract. -/
theorem returns_eval {Q : Except ε α → Prop} {answer : ∀ o, R o} (hA : ∀ o, A o (answer o))
    {p : Prog O R ε α} (h : p.Returns A Q) : Q (p.eval answer) := by
  induction p with
  | pure a => exact h
  | fail e => exact h
  | op o k ih => exact ih _ (h _ (hA o))

/-- Implementing the operations within the contract keeps the result, as long as
the result allows the errors the implementation may end in. -/
theorem returns_translate {B : ∀ o, T o → Prop} {f : ∀ o, Prog P T ε (R o)} {E : ε → Prop}
    {Q : Except ε α → Prop}
    (hf : ∀ o, (f o).Returns B (fun x => (∃ r, x = .ok r ∧ A o r) ∨ ∃ e, x = .error e ∧ E e))
    (hE : ∀ e, E e → Q (.error e)) {p : Prog O R ε α} (h : p.Returns A Q) :
    (p.translate f).Returns B Q := by
  induction p with
  | pure a => exact h
  | fail e => exact h
  | op o k ih =>
    rw [translate, returns_bind]
    refine returns_mono ?_ (hf o)
    rintro _ (⟨r, rfl, hr⟩ | ⟨e, rfl, he⟩)
    · exact ih r (h r hr)
    · exact hE e he

end Returns

theorem eval_bind (answer : ∀ o, R o) (p : Prog O R ε α) (f : α → Prog O R ε β) :
    (p.bind f).eval answer = (p.eval answer).bind (fun a => (f a).eval answer) := by
  induction p with
  | pure a => rfl
  | fail e => rfl
  | op o k ih => exact ih _

/-! ### The operations a program may perform -/

/-- Every operation the program can come to satisfies `C`, whatever the answers. -/
def Calls (C : O → Prop) : Prog O R ε α → Prop
  | .pure _ => True
  | .fail _ => True
  | .op o k => C o ∧ ∀ r, (k r).Calls C

section Calls

variable {C : O → Prop}

theorem calls_ofExcept {x : Except ε α} : (ofExcept x : Prog O R ε α).Calls C := by
  cases x with
  | ok a => trivial
  | error e => trivial

/-- The rest of a program need only be looked at for the values its first part can end in. -/
theorem calls_bind {p : Prog O R ε α} {f : α → Prog O R ε β} {P : α → Prop} (hp : p.Calls C)
    (hP : p.Returns (fun _ _ => True) fun x => ∀ a, x = .ok a → P a)
    (hf : ∀ a, P a → (f a).Calls C) :
    (p.bind f).Calls C := by
  induction p with
  | pure a => exact hf a (hP a rfl)
  | fail e => trivial
  | op o k ih => exact ⟨hp.1, fun r => ih r (hp.2 r) (hP r trivial)⟩

theorem calls_seq {p : Prog O R ε α} {f : α → Prog O R ε β} (hp : p.Calls C)
    (hf : ∀ a, (f a).Calls C) :
    (p.bind f).Calls C := by
  induction p with
  | pure a => exact hf a
  | fail e => trivial
  | op o k ih => exact ⟨hp.1, fun r => ih r (hp.2 r)⟩

theorem calls_attempt {p : Prog O R ε α} (hp : p.Calls C) : p.attempt.Calls C := by
  induction p with
  | pure a => trivial
  | fail e => trivial
  | op o k ih => exact ⟨hp.1, fun r => ih r (hp.2 r)⟩

theorem calls_translate {D : P → Prop} {f : ∀ o, Prog P T ε (R o)} (hf : ∀ o, (f o).Calls D)
    (p : Prog O R ε α) :
    (p.translate f).Calls D := by
  induction p with
  | pure a => trivial
  | fail e => trivial
  | op o k ih => exact calls_seq (hf o) ih

/-- The operations of the program need only be looked at. -/
theorem calls_translate_of {D : P → Prop} {f : ∀ o, Prog P T ε (R o)}
    (hf : ∀ o, C o → (f o).Calls D) {p : Prog O R ε α}
    (hp : p.Calls C) : (p.translate f).Calls D := by
  induction p with
  | pure a => trivial
  | fail e => trivial
  | op o k ih => exact calls_seq (hf o hp.1) fun r => ih r (hp.2 r)

/-- The operations of a run with their answers, up to any point of it. -/
inductive Trace : Prog O R ε α → List (Σ o, R o) → Prop where
  | nil (p : Prog O R ε α) : Trace p []
  | cons (o : O) (k : R o → Prog O R ε α) (r : R o) (t : List (Σ o, R o)) (h : (k r).Trace t) :
      Trace (.op o k) (⟨o, r⟩ :: t)

/-- The run against an environment that always gives the same answers. -/
def trace (answer : ∀ o, R o) : Prog O R ε α → List (Σ o, R o)
  | .pure _ => []
  | .fail _ => []
  | .op o k => ⟨o, answer o⟩ :: (k (answer o)).trace answer

theorem trace_trace (answer : ∀ o, R o) (p : Prog O R ε α) : p.Trace (p.trace answer) := by
  induction p with
  | pure a => exact .nil _
  | fail e => exact .nil _
  | op o k ih => exact .cons o k _ _ (ih _)

theorem mem_trace {answer : ∀ o, R o} {p : Prog O R ε α} :
    ∀ e ∈ p.trace answer, e = ⟨e.1, answer e.1⟩ := by
  induction p with
  | pure a => simp [trace]
  | fail e => simp [trace]
  | op o k ih =>
    intro e he
    rcases List.mem_cons.mp he with rfl | he
    · rfl
    · exact ih _ e he

theorem calls_trace {p : Prog O R ε α} {t : List (Σ o, R o)} (ht : p.Trace t) (hp : p.Calls C) :
    ∀ e ∈ t, C e.1 := by
  induction ht with
  | nil p => simp
  | cons o k r t h ih =>
    intro e he
    rcases List.mem_cons.mp he with rfl | he
    · exact hp.1
    · exact ih (hp.2 r) e he

theorem trace_bind (answer : ∀ o, R o) (p : Prog O R ε α) (f : α → Prog O R ε β) {a : α}
    (h : p.eval answer = .ok a) :
    (p.bind f).trace answer = p.trace answer ++ (f a).trace answer := by
  induction p with
  | pure b =>
    obtain rfl : b = a := by simpa [eval] using h
    rfl
  | fail e => simp [eval] at h
  | op o k ih => exact congrArg (_ :: ·) (ih _ h)

/-- An answer outside `A` ends the program with an error of `E`. -/
def Stops (A : ∀ o, R o → Prop) (E : ε → Prop) : Prog O R ε α → Prop
  | .pure _ => True
  | .fail _ => True
  | .op o k => (∀ r, ¬ A o r → ∃ e, k r = .fail e ∧ E e) ∧ ∀ r, (k r).Stops A E

theorem stops_ofExcept {A : ∀ o, R o → Prop} {E : ε → Prop} {x : Except ε α} :
    (ofExcept x : Prog O R ε α).Stops A E := by
  cases x with
  | ok a => trivial
  | error e => trivial

theorem stops_bind {A : ∀ o, R o → Prop} {E : ε → Prop} {p : Prog O R ε α} {f : α → Prog O R ε β}
    (hp : p.Stops A E) (hf : ∀ a, (f a).Stops A E) : (p.bind f).Stops A E := by
  induction p with
  | pure a => exact hf a
  | fail e => trivial
  | op o k ih =>
    refine ⟨fun r hr => ?_, fun r => ih r (hp.2 r)⟩
    obtain ⟨e, hk, he⟩ := hp.1 r hr
    refine ⟨e, ?_, he⟩
    dsimp only
    rw [hk, fail_bind]

/-- Two environments that differ only outside `A`: as long as the run comes to no difference
the result is the same, and where it comes to one there is an error. -/
theorem stops_eval {A : ∀ o, R o → Prop} {E : ε → Prop} {answer answer' : ∀ o, R o}
    (h : ∀ o, A o (answer o) → answer o = answer' o) {p : Prog O R ε α} (hp : p.Stops A E) :
    ((∀ e ∈ p.trace answer', A e.1 (answer e.1)) → p.eval answer = p.eval answer') ∧
      ((∃ e ∈ p.trace answer', ¬ A e.1 (answer e.1)) → ∃ e, p.eval answer = .error e ∧ E e) := by
  induction p with
  | pure a => exact ⟨fun _ => rfl, fun ⟨_, he, _⟩ => absurd he List.not_mem_nil⟩
  | fail e => exact ⟨fun _ => rfl, fun ⟨_, he, _⟩ => absurd he List.not_mem_nil⟩
  | op o k ih =>
    by_cases ho : A o (answer o)
    · have heq := h o ho
      rw [eval, eval, heq]
      refine ⟨fun ht => (ih _ (hp.2 _)).1 fun e he => ht e (List.mem_cons_of_mem _ he), ?_⟩
      rintro ⟨e, he, hA⟩
      rcases List.mem_cons.mp he with rfl | he
      · exact absurd ho hA
      · exact (ih _ (hp.2 _)).2 ⟨e, he, hA⟩
    · obtain ⟨e, hk, he⟩ := hp.1 _ ho
      refine ⟨fun ht => absurd (ht _ List.mem_cons_self) ho, fun _ => ⟨e, ?_, he⟩⟩
      rw [eval, hk]
      rfl

/-- Translation does not change what a program can end in. -/
theorem returns_translate_any {f : ∀ o, Prog P T ε (R o)} {V : α → Prop} {p : Prog O R ε α}
    (h : p.Returns (fun _ _ => True) fun x => ∀ a, x = .ok a → V a) :
    (p.translate f).Returns (fun _ _ => True) fun x => ∀ a, x = .ok a → V a := by
  induction p with
  | pure a => exact h
  | fail e => exact h
  | op o k ih =>
    rw [translate, returns_bind]
    have hany : ∀ q : Prog P T ε (R o), q.Returns (fun _ _ => True)
        (After (fun _ _ => True) (fun r => (k r).translate f) fun x => ∀ a, x = .ok a → V a) := by
      intro q
      induction q with
      | pure r => exact ih r (h r trivial)
      | fail e => exact fun a ha => by cases ha
      | op o' k' ih' => exact fun r _ => ih' r
    exact hany (f o)

/-- Operations implemented with a state. Those that the program need not go on from are not
looked at: every answer they may have is one it stops at. -/
theorem returns_translateWith {σ : Type} {A G : ∀ o, R o → Prop} {E : ε → Prop}
    {B : ∀ o, T o → Prop} {I : σ → Prop} {V : α → Prop} {f : σ → ∀ o, Prog P T ε (R o × σ)}
    (hf : ∀ s o, I s → (∀ r, A o r → G o r) → (f s o).Returns B fun x => ∃ r s, x = .ok (r, s) ∧
      A o r ∧ I s)
    {p : Prog O R ε α} (hstop : p.Stops G E) (hp : p.Returns A fun x => ∃ a, x = .ok a ∧ V a)
    {s : σ} (hs : I s) :
    (p.translateWith f s).Returns B fun x => ∃ a s, x = .ok (a, s) ∧ V a ∧ I s := by
  induction p generalizing s with
  | pure a =>
    obtain ⟨_, heq, ha⟩ := hp
    cases heq
    exact ⟨a, s, rfl, ha, hs⟩
  | fail e =>
    obtain ⟨_, heq, -⟩ := hp
    cases heq
  | op o k ih =>
    have hgo : ∀ r, A o r → G o r := by
      intro r hr
      by_contra hbad
      obtain ⟨e, hk, -⟩ := hstop.1 r hbad
      have hend := hp r hr
      rw [hk] at hend
      obtain ⟨_, heq, -⟩ := hend
      cases heq
    rw [translateWith]
    refine returns_bind_ok (P := fun rs => A o rs.1 ∧ I rs.2) ?_ ?_
    · refine returns_mono ?_ (hf s o hs hgo)
      rintro _ ⟨r, s', rfl, hr, hs'⟩
      exact ⟨(r, s'), rfl, hr, hs'⟩
    · rintro ⟨r, s'⟩ ⟨hr, hs'⟩
      exact ih r (hstop.2 r) (hp r hr) hs'

end Calls

/-! ### One operation at a time on a shared state -/

section Safe

variable {S : Type}

/-- From `s` the program ends in `Q`, whatever happens around it: before each operation
the state may have moved along `rely`, and the operation itself keeps the invariant
and moves along `guar`. -/
def Safe (exec : S → (o : O) → R o → S → Prop) (Inv : S → Prop) (rely guar : S → S → Prop)
    (Q : Except ε α → S → Prop) : Prog O R ε α → S → Prop
  | .pure a, s => Q (.ok a) s
  | .fail e, s => Q (.error e) s
  | .op o k, s => ∀ s₁, rely s s₁ → Inv s₁ → ∀ r s₂, exec s₁ o r s₂ →
      Inv s₂ ∧ guar s₁ s₂ ∧ (k r).Safe exec Inv rely guar Q s₂

variable {exec : S → (o : O) → R o → S → Prop} {Inv : S → Prop} {rely guar : S → S → Prop}

theorem safe_weaken {Q Q' : Except ε α → S → Prop} (hQ : ∀ x s, Q x s → Q' x s)
    {p : Prog O R ε α} {s : S} (h : p.Safe exec Inv rely guar Q s) :
    p.Safe exec Inv rely guar Q' s := by
  induction p generalizing s with
  | pure a => exact hQ _ _ h
  | fail e => exact hQ _ _ h
  | op o k ih =>
    intro s₁ hs hi r s₂ he
    obtain ⟨hi₂, hle, hk⟩ := h s₁ hs hi r s₂ he
    exact ⟨hi₂, hle, ih r hk⟩

/-- A safe program stays safe when others move the state. -/
theorem safe_stable (htrans : ∀ a b c, rely a b → rely b c → rely a c) {Q : Except ε α → S → Prop}
    (hQ : ∀ x s s', Q x s → rely s s' → Q x s') {p : Prog O R ε α} {s s' : S}
    (h : p.Safe exec Inv rely guar Q s) (hs : rely s s') : p.Safe exec Inv rely guar Q s' := by
  cases p with
  | pure a => exact hQ _ _ _ h hs
  | fail e => exact hQ _ _ _ h hs
  | op o k => exact fun s₁ hs₁ => h s₁ (htrans _ _ _ hs hs₁)

/-- What the rest of a program needs of the state in which its first part ended. -/
def Then (exec : S → (o : O) → R o → S → Prop) (Inv : S → Prop)
    (rely guar : S → S → Prop) (f : α → Prog O R ε β) (Q : Except ε β → S → Prop) :
    Except ε α → S → Prop
  | .ok a, s => (f a).Safe exec Inv rely guar Q s
  | .error e, s => Q (.error e) s

theorem safe_bind {p : Prog O R ε α} {f : α → Prog O R ε β} {Q : Except ε β → S → Prop} {s : S} :
    (p.bind f).Safe exec Inv rely guar Q s ↔
    p.Safe exec Inv rely guar (Then exec Inv rely guar f Q) s := by
  induction p generalizing s with
  | pure a => rfl
  | fail e => rfl
  | op o k ih =>
    refine forall_congr' fun s₁ => imp_congr_right fun _ => imp_congr_right fun _ =>
      forall_congr' fun r => forall_congr' fun s₂ => imp_congr_right fun _ => ?_
    exact and_congr_right fun _ => and_congr_right fun _ => ih r

theorem safe_mapErr {δ : Type} {f : ε → δ} {p : Prog O R ε α} {Q : Except δ α → S → Prop} {s : S}
    (h : p.Safe exec Inv rely guar (fun x s => Q (x.mapError f) s) s) :
    (p.mapErr f).Safe exec Inv rely guar Q s := by
  induction p generalizing s with
  | pure a => exact h
  | fail e => exact h
  | op o k ih =>
    intro s₁ hs hi r s₂ he
    obtain ⟨hi₂, hle, hk⟩ := h s₁ hs hi r s₂ he
    exact ⟨hi₂, hle, ih r hk⟩

theorem safe_attempt {p : Prog O R ε α} {Q : Except ε (Except ε α) → S → Prop} {s : S}
    (h : p.Safe exec Inv rely guar (fun x s => Q (.ok x) s) s) :
    p.attempt.Safe exec Inv rely guar Q s := by
  induction p generalizing s with
  | pure a => exact h
  | fail e => exact h
  | op o k ih =>
    intro s₁ hs hi r s₂ he
    obtain ⟨hi₂, hle, hk⟩ := h s₁ hs hi r s₂ he
    exact ⟨hi₂, hle, ih r hk⟩

/-- A program whose operations are implemented within its contract has its result,
or ends in an error of their implementation, whatever else happens meanwhile. -/
theorem safe_translate {P : Type} {T : P → Type} {exec : S → (o : P) → T o → S → Prop}
    {f : ∀ o, Prog P T ε (R o)} {A : ∀ o, R o → Prop} {J : S → Prop} {E : ε → S → Prop}
    {Q : Except ε α → Prop} (hf : ∀ o s, J s → (f o).Safe exec Inv rely guar
      (fun x s => (∀ r, x = .ok r → J s ∧ A o r) ∧ ∀ e, x = .error e → E e s) s)
    {p : Prog O R ε α} (h : p.Returns A Q) {s : S} (hs : J s) :
    (p.translate f).Safe exec Inv rely guar (fun x s => (J s ∧ Q x) ∨ ∃ e, x = .error e ∧ E e s)
      s := by
  induction p generalizing s with
  | pure a => exact .inl ⟨hs, h⟩
  | fail e => exact .inl ⟨hs, h⟩
  | op o k ih =>
    rw [translate, safe_bind]
    refine safe_weaken ?_ (hf o s hs)
    rintro x s' ⟨hok, herr⟩
    cases x with
    | ok r => exact ih r (h r (hok r rfl).2) (hok r rfl).1
    | error e => exact .inr ⟨e, rfl, herr e rfl⟩

/-- A program whose operations each keep an assertion is safe and keeps it. -/
theorem safe_of_calls {C : O → Prop} {J : S → Prop} (hrely : ∀ s s', J s → rely s s' → J s')
    (hC : ∀ o, C o → ∀ s, J s → Inv s → ∀ r s', exec s o r s' → Inv s' ∧ guar s s' ∧ J s')
    {p : Prog O R ε α}
    (hp : p.Calls C) {s : S} (hs : J s) : p.Safe exec Inv rely guar (fun _ s => J s) s := by
  induction p generalizing s with
  | pure a => exact hs
  | fail e => exact hs
  | op o k ih =>
    intro s₁ hle hi r s₂ he
    obtain ⟨hi₂, hguar, hs₂⟩ := hC o hp.1 s₁ (hrely _ _ hs hle) hi r s₂ he
    exact ⟨hi₂, hguar, ih r (hp.2 r) hs₂⟩

/-- What a program can end in, whatever the answers. -/
theorem safe_and_returns {Q : Except ε α → S → Prop} {V : Except ε α → Prop} {p : Prog O R ε α}
    {s : S} (h : p.Safe exec Inv rely guar Q s) (hV : p.Returns (fun _ _ => True) V) :
    p.Safe exec Inv rely guar (fun x s => Q x s ∧ V x) s := by
  induction p generalizing s with
  | pure a => exact ⟨h, hV⟩
  | fail e => exact ⟨h, hV⟩
  | op o k ih =>
    intro s₁ hle hi r s₂ he
    obtain ⟨hi₂, hguar, hk⟩ := h s₁ hle hi r s₂ he
    exact ⟨hi₂, hguar, ih r hk (hV r trivial)⟩

/-- A safe program keeps one more invariant if its operations do, given what holds from the
start on. -/
theorem safe_and_of_calls {C : O → Prop} {J K : S → Prop} (hrely : ∀ s s', K s → rely s s' → K s')
    (hguar : ∀ s s', K s → guar s s' → K s')
    (hC : ∀ o, C o → ∀ s, K s → Inv s → J s → ∀ r s', exec s o r s' → J s') {p : Prog O R ε α}
    {Q : Except ε α → S → Prop} {s : S} (h : p.Safe exec Inv rely guar Q s) (hp : p.Calls C)
    (hs : K s) :
    p.Safe exec (fun s => Inv s ∧ J s) rely guar Q s := by
  induction p generalizing s with
  | pure a => exact h
  | fail e => exact h
  | op o k ih =>
    intro s₁ hle hi r s₂ he
    have h₁ := hrely _ _ hs hle
    obtain ⟨hi₂, hle₂, hk⟩ := h s₁ hle hi.1 r s₂ he
    exact ⟨⟨hi₂, hC o hp.1 s₁ h₁ hi.1 hi.2 r s₂ he⟩, hle₂, ih r hk (hp.2 r) (hguar _ _ h₁ hle₂)⟩

end Safe

/-! ### A program that alone moves its state -/

section Along

variable {S : Type}

/-- The operation the program performs next. -/
def next : Prog O R ε α → Option O
  | .pure _ => none
  | .fail _ => none
  | .op o _ => some o

/-- `J` holds before each operation, whatever the answers, and `Q` at the end. -/
def Along (exec : S → (o : O) → R o → S → Prop) (J : O → S → Prop) (Q : Except ε α → S → Prop) :
    Prog O R ε α → S → Prop
  | .pure a, s => Q (.ok a) s
  | .fail e, s => Q (.error e) s
  | .op o k, s => J o s ∧ ∀ r s', exec s o r s' → (k r).Along exec J Q s'

/-- The points of the runs of a program from a state, however it is interrupted. -/
inductive Reaches (exec : S → (o : O) → R o → S → Prop) :
    Prog O R ε α → S → Prog O R ε α → S → Prop where
  | refl (p : Prog O R ε α) (s : S) : Reaches exec p s p s
  | op {o : O} {k : R o → Prog O R ε α} {s s' s'' : S} {r : R o} {p : Prog O R ε α}
      (h : exec s o r s') (hk : Reaches exec (k r) s' p s'') : Reaches exec (.op o k) s p s''

variable {exec : S → (o : O) → R o → S → Prop} {J : O → S → Prop} {Q : Except ε α → S → Prop}

/-- What holds at each point of a run. -/
theorem along_now {J : Option O → S → Prop} {p : Prog O R ε α} {s : S}
    (h : p.Along exec (fun o => J (some o)) (fun _ => J none) s) : J p.next s := by
  cases p with
  | pure a => exact h
  | fail e => exact h
  | op o k => exact h.1

theorem along_reaches {p p' : Prog O R ε α} {s s' : S} (h : p.Along exec J Q s)
    (hr : Reaches exec p s p' s') :
    p'.Along exec J Q s' := by
  induction hr with
  | refl p s => exact h
  | op hexec _ ih => exact ih (h.2 _ _ hexec)

theorem along_weaken {Q' : Except ε α → S → Prop} (hQ : ∀ x s, Q x s → Q' x s) {p : Prog O R ε α}
    {s : S} (h : p.Along exec J Q s) : p.Along exec J Q' s := by
  induction p generalizing s with
  | pure a => exact hQ _ _ h
  | fail e => exact hQ _ _ h
  | op o k ih => exact ⟨h.1, fun r s' he => ih r (h.2 r s' he)⟩

theorem along_mono {J' : O → S → Prop} (hJ : ∀ o s, J o s → J' o s) {p : Prog O R ε α} {s : S}
    (h : p.Along exec J Q s) :
    p.Along exec J' Q s := by
  induction p generalizing s with
  | pure a => exact h
  | fail e => exact h
  | op o k ih => exact ⟨hJ o s h.1, fun r s' he => ih r (h.2 r s' he)⟩

theorem Reaches.trans {p p' p'' : Prog O R ε α} {s s' s'' : S} (h : Reaches exec p s p' s')
    (h' : Reaches exec p' s' p'' s'') :
    Reaches exec p s p'' s'' := by
  induction h with
  | refl p s => exact h'
  | op hexec _ ih => exact .op hexec (ih h')

/-- The first operations of a run whose answers are computed. -/
def runFor (answer : S → (o : O) → R o × S) : ℕ → Prog O R ε α → S → Prog O R ε α × S
  | n + 1, .op o k, s => runFor answer n (k (answer s o).1) (answer s o).2
  | _, p, s => (p, s)

theorem reaches_runFor {answer : S → (o : O) → R o × S}
    (hexec : ∀ s o, exec s o (answer s o).1 (answer s o).2) (n : ℕ) (p : Prog O R ε α) (s : S) :
    Reaches exec p s (runFor answer n p s).1 (runFor answer n p s).2 := by
  induction n generalizing p s with
  | zero => cases p <;> exact .refl _ _
  | succ n ih =>
    cases p with
    | pure a => exact .refl _ _
    | fail e => exact .refl _ _
    | op o k => exact .op (hexec s o) (ih _ _)

theorem reaches_bind {p : Prog O R ε α} {f : α → Prog O R ε β} {a : α} {s s' : S}
    (h : Reaches exec p s (.pure a) s') :
    Reaches exec (p.bind f) s (f a) s' := by
  generalize hend : Prog.pure a = q at h
  induction h with
  | refl p s =>
    subst hend
    exact .refl _ _
  | op hexec _ ih => exact .op hexec (ih hend)

/-- Some run of the program ends with a value as asserted. -/
def CanEnd (exec : S → (o : O) → R o → S → Prop) (P : α → S → Prop) (p : Prog O R ε α) (s : S) :
    Prop :=
  ∃ a s', Reaches exec p s (.pure a) s' ∧ P a s'

section CanEnd

variable {P : α → S → Prop} {s : S}

theorem canEnd_pure {a : α} (h : P a s) : CanEnd exec P (.pure a : Prog O R ε α) s :=
  ⟨a, s, .refl _ _, h⟩

theorem canEnd_call {o : O} {P : R o → S → Prop} {r : R o} {s' : S} (hexec : exec s o r s')
    (h : P r s') :
    CanEnd exec P (call o : Prog O R ε (R o)) s := ⟨r, s', .op hexec (.refl _ _), h⟩

theorem canEnd_mono {P' : α → S → Prop} (hP : ∀ a s, P a s → P' a s) {p : Prog O R ε α}
    (h : CanEnd exec P p s) :
    CanEnd exec P' p s := by
  obtain ⟨a, s', hr, ha⟩ := h
  exact ⟨a, s', hr, hP a s' ha⟩

theorem canEnd_bind {p : Prog O R ε α} {f : α → Prog O R ε β} {Q : β → S → Prop}
    (hp : CanEnd exec P p s)
    (hf : ∀ a s, P a s → CanEnd exec Q (f a) s) : CanEnd exec Q (p.bind f) s := by
  obtain ⟨a, s', hr, ha⟩ := hp
  obtain ⟨b, s'', hr', hb⟩ := hf a s' ha
  exact ⟨b, s'', (reaches_bind hr).trans hr', hb⟩

/-- A program can have a result of its contract, if its operations can be implemented within it. -/
theorem canEnd_translate {P : Type} {T : P → Type} {exec : S → (o : P) → T o → S → Prop}
    {f : ∀ o, Prog P T ε (R o)} {A : ∀ o, R o → Prop} {K : S → Prop} {V : α → Prop}
    (hf : ∀ o s, K s → CanEnd exec (fun r s => K s ∧ A o r) (f o) s)
    {p : Prog O R ε α} (h : p.Returns A fun x => ∃ a, x = .ok a ∧ V a) {s : S} (hs : K s) :
    CanEnd exec (fun a s => K s ∧ V a) (p.translate f) s := by
  induction p generalizing s with
  | pure a =>
    obtain ⟨_, heq, ha⟩ := h
    cases heq
    exact canEnd_pure ⟨hs, ha⟩
  | fail e =>
    obtain ⟨_, heq, -⟩ := h
    cases heq
  | op o k ih => exact canEnd_bind (hf o s hs) fun r s' hr => ih r (h r hr.2) hr.1

end CanEnd

/-- The rule for one program after another. -/
theorem along_bind {p : Prog O R ε α} {f : α → Prog O R ε β} {Q : Except ε β → S → Prop}
    {P : Except ε α → S → Prop}
    {s : S} (hp : p.Along exec J P s) (hok : ∀ a s, P (.ok a) s → (f a).Along exec J Q s)
    (herr : ∀ e s, P (.error e) s → Q (.error e) s) : (p.bind f).Along exec J Q s := by
  induction p generalizing s with
  | pure a => exact hok a s hp
  | fail e => exact herr e s hp
  | op o k ih => exact ⟨hp.1, fun r s' he => ih r (hp.2 r s' he)⟩

theorem along_ofExcept {x : Except ε α} {s : S} (h : Q x s) : (ofExcept x).Along exec J Q s := by
  cases x with
  | ok a => exact h
  | error e => exact h

/-- A program all of whose operations keep an assertion. -/
theorem along_of_calls {C : O → Prop} {K : S → Prop} (hJ : ∀ o s, C o → K s → J o s)
    (hK : ∀ o, C o → ∀ s, K s → ∀ r s', exec s o r s' → K s') {p : Prog O R ε α} (hp : p.Calls C)
    {s : S} (hs : K s) :
    p.Along exec J (fun _ s => K s) s := by
  induction p generalizing s with
  | pure a => exact hs
  | fail e => exact hs
  | op o k ih => exact ⟨hJ o s hp.1 hs, fun r s' he => ih r (hp.2 r) (hK o hp.1 s hs r s' he)⟩

/-- Operations implemented within the contract of a program, over a state they keep. -/
theorem along_translate {P : Type} {T : P → Type} {exec : S → (o : P) → T o → S → Prop}
    {J : P → S → Prop}
    {f : ∀ o, Prog P T ε (R o)} {A : ∀ o, R o → Prop} {K : S → Prop} {E : ε → S → Prop}
    {Q : Except ε α → Prop} (hf : ∀ o s, K s → (f o).Along exec J
      (fun x s => (∀ r, x = .ok r → K s ∧ A o r) ∧ ∀ e, x = .error e → E e s) s)
    {p : Prog O R ε α} (h : p.Returns A Q) {s : S} (hs : K s) :
    (p.translate f).Along exec J (fun x s => (K s ∧ Q x) ∨ ∃ e, x = .error e ∧ E e s) s := by
  induction p generalizing s with
  | pure a => exact .inl ⟨hs, h⟩
  | fail e => exact .inl ⟨hs, h⟩
  | op o k ih =>
    refine along_bind (hf o s hs) ?_ ?_
    · rintro r s' ⟨hok, -⟩
      exact ih r (h r (hok r rfl).2) (hok r rfl).1
    · rintro e s' ⟨-, herr⟩
      exact .inr ⟨e, rfl, herr e rfl⟩

end Along

end Prog

end Siglog.Concurrent
