import Siglog.Concurrent.Program
import Mathlib.Logic.Function.Iterate

/-! A pool of threads over a shared state. Threads run one atomic operation at a
time in any order; between their operations the environment may move the state,
threads may be started, and threads may stop for good. The rule of this file
turns a proof about each program alone into an invariant of all runs. -/

namespace Siglog.Concurrent

variable {S T O : Type} {R : O → Type} {ε α : Type}

/-- A shared state and the threads over it, each with the tag it was started under. -/
structure Pool (S T O : Type) (R : O → Type) (ε α : Type) where
  shared : S
  threads : List (T × Prog O R ε α)

/-- The parts of a system: what the environment may do, which programs may be
started in which state, and what each operation does. -/
structure Sys (S T O : Type) (R : O → Type) (ε α : Type) where
  env : S → S → Prop
  start : S → T → Prog O R ε α → Prop
  exec : S → (o : O) → R o → S → Prop

namespace Sys

variable (M : Sys S T O R ε α)

inductive Step : Pool S T O R ε α → Pool S T O R ε α → Prop where
  | env {s s' : S} {ts : List (T × Prog O R ε α)} (h : M.env s s') : Step ⟨s, ts⟩ ⟨s', ts⟩
  | start {s : S} {ts : List (T × Prog O R ε α)} {t : T} {p : Prog O R ε α} (h : M.start s t p) :
      Step ⟨s, ts⟩ ⟨s, ts ++ [(t, p)]⟩
  | run {s s' : S} {l₁ l₂ : List (T × Prog O R ε α)} {t : T} {o : O} {k : R o → Prog O R ε α}
      {r : R o} (h : M.exec s o r s') :
      Step ⟨s, l₁ ++ (t, .op o k) :: l₂⟩ ⟨s', l₁ ++ (t, k r) :: l₂⟩
  | stop {s : S} {l₁ l₂ : List (T × Prog O R ε α)} {th : T × Prog O R ε α} :
      Step ⟨s, l₁ ++ th :: l₂⟩ ⟨s, l₁ ++ l₂⟩

/-- The pools a run from the idle state `s₀` can reach. -/
def Reachable (s₀ : S) (p : Pool S T O R ε α) : Prop :=
  Relation.ReflTransGen M.Step ⟨s₀, []⟩ p

variable {M}

/-- All threads may stop. -/
theorem reachable_idle {s₀ s : S} {ts : List (T × Prog O R ε α)} (h : M.Reachable s₀ ⟨s, ts⟩) :
    M.Reachable s₀ ⟨s, []⟩ := by
  induction ts with
  | nil => exact h
  | cons th ts ih =>
    have hstop : M.Step ⟨s, [] ++ th :: ts⟩ ⟨s, [] ++ ts⟩ := .stop
    exact ih (h.tail hstop)

section Alone

variable (answer : S → (o : O) → R o × S)

/-- Run a program to its end while nothing else happens. -/
def runAlone : Prog O R ε α → S → Except ε α × S
  | .pure a, s => (.ok a, s)
  | .fail e, s => (.error e, s)
  | .op o k, s => runAlone (k (answer s o).1) (answer s o).2

/-- The operations of that run. -/
def opsAlone : Prog O R ε α → S → List O
  | .pure _, _ => []
  | .fail _, _ => []
  | .op o k, s => o :: opsAlone (k (answer s o).1) (answer s o).2

variable {answer}

@[simp] theorem runAlone_pure (a : α) (s : S) :
    runAlone answer (.pure a : Prog O R ε α) s = (.ok a, s) := rfl

@[simp] theorem runAlone_fail (e : ε) (s : S) :
    runAlone answer (.fail e : Prog O R ε α) s = (.error e, s) := rfl

@[simp] theorem runAlone_ofExcept (x : Except ε α) (s : S) :
    runAlone answer (Prog.ofExcept x : Prog O R ε α) s = (x, s) := by
  cases x with
  | ok a => rfl
  | error e => rfl

/-- The first part succeeds and the rest goes on from there. -/
theorem runAlone_bind {β : Type} {p : Prog O R ε α} {f : α → Prog O R ε β} {s s' : S} {a : α}
    (h : runAlone answer p s = (.ok a, s')) :
    runAlone answer (p.bind f) s = runAlone answer (f a) s' := by
  induction p generalizing s with
  | pure b =>
    obtain ⟨rfl, rfl⟩ := Prod.mk.inj h |>.imp_left Except.ok.inj
    rfl
  | fail e => cases (Prod.mk.inj h).1
  | op o k ih => exact ih _ h

/-- The first part fails and nothing else is done. -/
theorem runAlone_bind_error {β : Type} {p : Prog O R ε α} {f : α → Prog O R ε β} {s s' : S} {e : ε}
    (h : runAlone answer p s = (.error e, s')) : runAlone answer (p.bind f) s = (.error e, s') := by
  induction p generalizing s with
  | pure b => cases (Prod.mk.inj h).1
  | fail e' =>
    obtain ⟨rfl, rfl⟩ := Prod.mk.inj h |>.imp_left Except.error.inj
    rfl
  | op o k ih => exact ih _ h

variable (answer)

theorem runAlone_mapErr {δ : Type} (f : ε → δ) (p : Prog O R ε α) (s : S) :
    runAlone answer (p.mapErr f) s =
      ((runAlone answer p s).1.mapError f, (runAlone answer p s).2) := by
  induction p generalizing s with
  | pure a => rfl
  | fail e => rfl
  | op o k ih => exact ih _ _

theorem runAlone_attempt (p : Prog O R ε α) (s : S) :
    runAlone answer p.attempt s = (.ok (runAlone answer p s).1, (runAlone answer p s).2) := by
  induction p generalizing s with
  | pure a => rfl
  | fail e => rfl
  | op o k ih => exact ih _ _

variable {answer}

/-- A run in which every operation is answered so. -/
theorem runAlone_reaches {exec : S → (o : O) → R o → S → Prop}
    (hexec : ∀ s o r s', exec s o r s' → answer s o = (r, s'))
    {p q : Prog O R ε α} {s t : S} (h : p.Reaches exec s q t) :
    runAlone answer p s = runAlone answer q t := by
  induction h with
  | refl => rfl
  | op he _ ih => rw [runAlone, hexec _ _ _ _ he, ih]

/-- The view of a run is the run on the view. -/
theorem runAlone_view {S' : Type} {answer' : S' → (o : O) → R o × S'} {view : S → S'}
    (hview : ∀ s o, answer' (view s) o = ((answer s o).1, view (answer s o).2)) (p : Prog O R ε α)
    (s : S) :
    runAlone answer' p (view s) = ((runAlone answer p s).1, view (runAlone answer p s).2) := by
  induction p generalizing s with
  | pure a => rfl
  | fail e => rfl
  | op o k ih => rw [runAlone, hview, ih, runAlone]

/-- What a safe program ends in when it runs alone. -/
theorem safe_runAlone {exec : S → (o : O) → R o → S → Prop} {Inv : S → Prop}
    {rely guar : S → S → Prop} {Q : Except ε α → S → Prop} (hrefl : ∀ s, rely s s)
    (hexec : ∀ s o, exec s o (answer s o).1 (answer s o).2)
    {p : Prog O R ε α} {s : S} (h : p.Safe exec Inv rely guar Q s) (hi : Inv s) :
    Q (runAlone answer p s).1 (runAlone answer p s).2 := by
  induction p generalizing s with
  | pure a => exact h
  | fail e => exact h
  | op o k ih =>
    obtain ⟨hi', -, hk⟩ := h s (hrefl s) hi _ _ (hexec s o)
    exact ih _ hk hi'

theorem along_runAlone {exec : S → (o : O) → R o → S → Prop} {J : O → S → Prop}
    {Q : Except ε α → S → Prop}
    (hexec : ∀ s o, exec s o (answer s o).1 (answer s o).2) {p : Prog O R ε α} {s : S}
    (h : p.Along exec J Q s) :
    Q (runAlone answer p s).1 (runAlone answer p s).2 := by
  induction p generalizing s with
  | pure a => exact h
  | fail e => exact h
  | op o k ih => exact ih _ (h.2 _ _ (hexec s o))

/-- A thread that runs alone from its start to its end is a part of a run. -/
theorem run_runAlone (hexec : ∀ s o, M.exec s o (answer s o).1 (answer s o).2)
    {q : Pool S T O R ε α} {s : S}
    {ts : List (T × Prog O R ε α)} (h : Relation.ReflTransGen M.Step q ⟨s, ts⟩) {t : T}
    {p : Prog O R ε α} (hp : M.start s t p) :
    Relation.ReflTransGen M.Step q
      ⟨(runAlone answer p s).2, ts ++ [(t, Prog.ofExcept (runAlone answer p s).1)]⟩ := by
  have hrun : ∀ (p : Prog O R ε α) (s : S), Relation.ReflTransGen M.Step q ⟨s, ts ++ [(t, p)]⟩ →
      Relation.ReflTransGen M.Step q
        ⟨(runAlone answer p s).2, ts ++ [(t, Prog.ofExcept (runAlone answer p s).1)]⟩ := by
    intro p
    induction p with
    | pure a => exact fun _ h => h
    | fail e => exact fun _ h => h
    | op o k ih => exact fun s h => ih _ _ (h.tail (.run (hexec s o)))
  exact hrun p s (h.tail (.start hp))

/-- Runs of one thread after the other are runs of the system. -/
theorem reachable_runAlone (hexec : ∀ s o, M.exec s o (answer s o).1 (answer s o).2) {s₀ s : S}
    {ts : List (T × Prog O R ε α)} (h : M.Reachable s₀ ⟨s, ts⟩) {t : T} {p : Prog O R ε α}
    (hp : M.start s t p) :
    M.Reachable s₀ ⟨(runAlone answer p s).2, ts ++ [(t, Prog.ofExcept (runAlone answer p s).1)]⟩ :=
  run_runAlone hexec h hp

/-- Any number of threads of one kind, one after the other. -/
theorem run_iterate (hexec : ∀ s o, M.exec s o (answer s o).1 (answer s o).2) {t : T}
    {p : Prog O R ε α} (hp : ∀ s, M.start s t p) (q : Pool S T O R ε α) (k : ℕ) :
    ∃ ts, Relation.ReflTransGen M.Step q ⟨(fun s => (runAlone answer p s).2)^[k] q.shared, ts⟩ := by
  induction k with
  | zero => exact ⟨q.threads, .refl⟩
  | succ k ih =>
    obtain ⟨ts, hrun⟩ := ih
    rw [Function.iterate_succ_apply']
    exact ⟨_, run_runAlone hexec hrun (hp _)⟩

end Alone

/-- What a proof about a system provides: an invariant, an order along which
every step moves the state, and for each tag the outcome its thread may end in. -/
structure Proof (M : Sys S T O R ε α) where
  Inv : S → Prop
  le : S → S → Prop
  Out : T → Except ε α → S → Prop
  refl : ∀ s, le s s
  trans : ∀ a b c, le a b → le b c → le a c
  stable : ∀ t x s s', Out t x s → le s s' → Out t x s'
  env : ∀ s s', Inv s → M.env s s' → Inv s' ∧ le s s'
  start : ∀ s t p, Inv s → M.start s t p → p.Safe M.exec Inv le le (Out t) s

namespace Proof

variable (P : Proof M)

/-- The invariant of the pool: the shared invariant, and every thread safe. -/
def Good (p : Pool S T O R ε α) : Prop :=
  P.Inv p.shared ∧ ∀ th ∈ p.threads, th.2.Safe M.exec P.Inv P.le P.le (P.Out th.1) p.shared

theorem safe_move {s s' : S} (hle : P.le s s') {ts : List (T × Prog O R ε α)}
    (h : ∀ th ∈ ts, th.2.Safe M.exec P.Inv P.le P.le (P.Out th.1) s) :
    ∀ th ∈ ts, th.2.Safe M.exec P.Inv P.le P.le (P.Out th.1) s' :=
  fun th hth => Prog.safe_stable P.trans (P.stable th.1) (h th hth) hle

/-- One step keeps the pool good and moves the shared state along the order. -/
theorem step_good {p q : Pool S T O R ε α} (h : M.Step p q) (hp : P.Good p) :
    P.Good q ∧ P.le p.shared q.shared := by
  obtain ⟨hi, hts⟩ := hp
  cases h with
  | env h =>
    obtain ⟨hi', hle⟩ := P.env _ _ hi h
    exact ⟨⟨hi', P.safe_move hle hts⟩, hle⟩
  | start h =>
    refine ⟨⟨hi, ?_⟩, P.refl _⟩
    intro th hth
    rcases List.mem_append.mp hth with hth | hth
    · exact hts th hth
    · obtain rfl := List.mem_singleton.mp hth
      exact P.start _ _ _ hi h
  | run h =>
    rename_i s s' l₁ l₂ t o k r
    obtain ⟨hi', hle, hk⟩ := hts (t, .op o k) (by simp) s (P.refl _) hi r s' h
    refine ⟨⟨hi', ?_⟩, hle⟩
    intro th hth
    rcases List.mem_append.mp hth with hth | hth
    · exact P.safe_move hle hts th (by simp [hth])
    · rcases List.mem_cons.mp hth with rfl | hth
      · exact hk
      · exact P.safe_move hle hts th (by simp [hth])
  | stop =>
    refine ⟨⟨hi, ?_⟩, P.refl _⟩
    intro th hth
    apply hts
    rcases List.mem_append.mp hth with hth | hth
    · simp [hth]
    · simp [hth]

/-- Every run keeps the pool good and moves the shared state along the order. -/
theorem run_good {p q : Pool S T O R ε α} (h : Relation.ReflTransGen M.Step p q) (hp : P.Good p) :
    P.Good q ∧ P.le p.shared q.shared := by
  induction h with
  | refl => exact ⟨hp, P.refl _⟩
  | tail _ hstep ih =>
    obtain ⟨hq, hle⟩ := P.step_good hstep ih.1
    exact ⟨hq, P.trans _ _ _ ih.2 hle⟩

theorem reachable_good {s₀ : S} (h₀ : P.Inv s₀) {p : Pool S T O R ε α} (h : M.Reachable s₀ p) :
    P.Good p :=
  (P.run_good h ⟨h₀, by simp⟩).1

theorem reachable_inv {s₀ : S} (h₀ : P.Inv s₀) {p : Pool S T O R ε α} (h : M.Reachable s₀ p) :
    P.Inv p.shared :=
  (P.reachable_good h₀ h).1

theorem reachable_error {s₀ : S} (h₀ : P.Inv s₀) {p : Pool S T O R ε α} (h : M.Reachable s₀ p)
    {t : T} {e : ε} (hth : (t, .fail e) ∈ p.threads) : P.Out t (.error e) p.shared :=
  (P.reachable_good h₀ h).2 _ hth

end Proof

/-! ### Refinement -/

section

variable {S' : Type}

/-- Every step of the first system is a step of the second, as far as the view tells, or
changes nothing of the view. -/
structure Refines (M : Sys S T O R ε α) (N : Sys S' T O R ε α) (view : S → S') : Prop where
  env : ∀ s s', M.env s s' → view s' = view s ∨ N.env (view s) (view s')
  start : ∀ s t p, M.start s t p → N.start (view s) t p
  exec : ∀ s o r s', M.exec s o r s' → N.exec (view s) o r (view s')

end

end Sys

/-- A pool with another view of its state. -/
def Pool.map {S' : Type} (view : S → S') (p : Pool S T O R ε α) : Pool S' T O R ε α :=
  ⟨view p.shared, p.threads⟩

namespace Sys.Refines

variable {S' : Type} {M : Sys S T O R ε α} {N : Sys S' T O R ε α} {view : S → S'}
  {p q : Pool S T O R ε α}

theorem step (h : Refines M N view) (hstep : M.Step p q) :
    q.map view = p.map view ∨ N.Step (p.map view) (q.map view) := by
  cases hstep with
  | env he =>
    rcases h.env _ _ he with heq | he
    · exact .inl (by rw [Pool.map, Pool.map, heq])
    · exact .inr (.env he)
  | start hs => exact .inr (.start (h.start _ _ _ hs))
  | run he => exact .inr (.run (h.exec _ _ _ _ he))
  | stop => exact .inr .stop

/-- The view of a run is a run. -/
theorem run (h : Refines M N view) (hpq : Relation.ReflTransGen M.Step p q) :
    Relation.ReflTransGen N.Step (p.map view) (q.map view) := by
  induction hpq with
  | refl => exact .refl
  | tail _ hstep ih =>
    rcases h.step hstep with heq | hstep
    · rwa [heq]
    · exact ih.tail hstep

theorem reachable (h : Refines M N view) {s₀ : S} (hp : M.Reachable s₀ p) :
    N.Reachable (view s₀) (p.map view) := h.run hp

end Sys.Refines

end Siglog.Concurrent
