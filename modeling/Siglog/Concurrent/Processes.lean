import Siglog.Concurrent.Program
import Mathlib.Logic.Function.Basic

/-! Processes over a shared state. A process runs one program at a time, and what belongs
to it in the state outlives its programs; a program may be dropped at any point. Every
process relies on some relation along which all the others move the state, so that a proof
about each program alone gives an invariant of all runs. -/

namespace Siglog.Concurrent

variable {ι S T O : Type} {R : O → Type} {ε α : Type}

/-- A shared state, and the program each process runs with the tag it was started under. -/
structure Processes (ι S T O : Type) (R : O → Type) (ε α : Type) where
  shared : S
  running : ι → Option (T × Prog O R ε α)

/-- The parts of a system: what the environment may do, which programs a process may start,
what its operations do, and what happens when a program ends or is dropped. -/
structure ProcSys (ι S T O : Type) (R : O → Type) (ε α : Type) where
  env : S → S → Prop
  start : ι → T → Prog O R ε α → Prop
  exec : ι → S → (o : O) → R o → S → Prop
  finish : ι → T → Except ε α → S → S → Prop
  drop : ι → S → S → Prop

namespace ProcSys

variable [DecidableEq ι] (M : ProcSys ι S T O R ε α)

inductive Step : Processes ι S T O R ε α → Processes ι S T O R ε α → Prop where
  | env {s s' : S} {running : ι → Option (T × Prog O R ε α)} (h : M.env s s') :
      Step ⟨s, running⟩ ⟨s', running⟩
  | start {s : S} {running : ι → Option (T × Prog O R ε α)} {i : ι} {t : T} {p : Prog O R ε α}
      (hi : running i = none)
      (h : M.start i t p) : Step ⟨s, running⟩ ⟨s, Function.update running i (some (t, p))⟩
  | run {s s' : S} {running : ι → Option (T × Prog O R ε α)} {i : ι} {t : T} {o : O}
      {k : R o → Prog O R ε α} {r : R o}
      (hi : running i = some (t, .op o k)) (h : M.exec i s o r s') :
      Step ⟨s, running⟩ ⟨s', Function.update running i (some (t, k r))⟩
  | finish {s s' : S} {running : ι → Option (T × Prog O R ε α)} {i : ι} {t : T} {x : Except ε α}
      (hi : running i = some (t, Prog.ofExcept x)) (h : M.finish i t x s s') :
      Step ⟨s, running⟩ ⟨s', Function.update running i none⟩
  | drop {s s' : S} {running : ι → Option (T × Prog O R ε α)} {i : ι} (h : M.drop i s s') :
      Step ⟨s, running⟩ ⟨s', Function.update running i none⟩

/-- What a run from `s₀` can reach, with no program running at its start. -/
def Reachable (s₀ : S) (p : Processes ι S T O R ε α) : Prop :=
  Relation.ReflTransGen M.Step ⟨s₀, fun _ => none⟩ p

/-- The steps that end in states of a kind. -/
def restrict (K : S → Prop) : ProcSys ι S T O R ε α where
  env s s' := M.env s s' ∧ K s'
  start := M.start
  exec i s o r s' := M.exec i s o r s' ∧ K s'
  finish i t x s s' := M.finish i t x s s' ∧ K s'
  drop i s s' := M.drop i s s' ∧ K s'

variable {M}

/-- When no step leads into that kind of state from outside, a run that ends there has been
there all along. -/
theorem reachable_restrict {K : S → Prop} (hK : ∀ p q, M.Step p q → K q.shared → K p.shared)
    {s₀ : S} {p : Processes ι S T O R ε α} (h : M.Reachable s₀ p) (hp : K p.shared) :
    (M.restrict K).Reachable s₀ p := by
  induction h with
  | refl => exact .refl
  | @tail p q _ hstep ih =>
    refine (ih (hK p q hstep hp)).tail ?_
    cases hstep with
    | env h => exact .env ⟨h, hp⟩
    | start hi h => exact .start hi h
    | run hi h => exact .run hi ⟨h, hp⟩
    | finish hi h => exact .finish hi ⟨h, hp⟩
    | drop h => exact .drop ⟨h, hp⟩

/-- A process may go on with its program while the others wait. -/
theorem reachable_reaches {s₀ s s' : S} {running : ι → Option (T × Prog O R ε α)} {i : ι} {t : T}
    {p p' : Prog O R ε α} (hr : Prog.Reaches (M.exec i) p s p' s')
    (h : M.Reachable s₀ ⟨s, Function.update running i (some (t, p))⟩) :
    M.Reachable s₀ ⟨s', Function.update running i (some (t, p'))⟩ := by
  induction hr with
  | refl p s => exact h
  | @op o k s s' _ r _ hexec _ ih =>
    have hi : Function.update running i (some (t, .op o k)) i = some (t, .op o k) :=
      Function.update_self _ _ _
    have hstep : M.Step ⟨s, _⟩ ⟨s', _⟩ := .run hi hexec
    rw [Function.update_idem] at hstep
    exact ih (h.tail hstep)

/-- A program that runs to its end while nothing else happens. -/
theorem reachable_ends {s₀ s s' : S} {running : ι → Option (T × Prog O R ε α)} {i : ι}
    (hi : running i = none) {t : T} {p : Prog O R ε α} {a : α} (hstart : M.start i t p)
    (hr : Prog.Reaches (M.exec i) p s (.pure a) s')
    (hfinish : M.finish i t (.ok a) s' s') (h : M.Reachable s₀ ⟨s, running⟩) :
    M.Reachable s₀ ⟨s', running⟩ := by
  have hended := reachable_reaches hr (h.tail (.start hi hstart))
  have hend : Function.update running i (some (t, .pure a)) i = some (t, Prog.ofExcept (.ok a)) :=
    Function.update_self _ _ _
  have hnone :
      Function.update (Function.update running i (some (t, .pure a))) i none = running := by
    rw [Function.update_idem, ← hi, Function.update_eq_self]
  have hlast : M.Step ⟨s', Function.update running i (some (t, .pure a))⟩ ⟨s', running⟩ := by
    have hstep := Step.finish hend hfinish
    rwa [hnone] at hstep
  exact hended.tail hlast

/-- What a proof about a system provides: an invariant, for each process a relation along
which the others may move the state, and for each tag the outcome its program may end in. -/
structure Proof (M : ProcSys ι S T O R ε α) where
  Inv : S → Prop
  rely : ι → S → S → Prop
  Out : ι → T → Except ε α → S → Prop
  refl : ∀ i s, rely i s s
  trans : ∀ i a b c, rely i a b → rely i b c → rely i a c
  stable : ∀ i t x s s', Out i t x s → rely i s s' → Out i t x s'
  env : ∀ s s', Inv s → M.env s s' → Inv s' ∧ ∀ i, rely i s s'
  start : ∀ i t p s, M.start i t p → Inv s →
    p.Safe (M.exec i) Inv (rely i) (fun s s' => ∀ j, j ≠ i → rely j s s') (Out i t) s
  finish : ∀ i t x s s', Inv s → Out i t x s → M.finish i t x s s' → Inv s' ∧
    ∀ j, j ≠ i → rely j s s'
  drop : ∀ i s s', Inv s → M.drop i s s' → Inv s' ∧ ∀ j, j ≠ i → rely j s s'

namespace Proof

variable (P : Proof M)

/-- A program of a process that is safe in a state. -/
def Good (i : ι) (th : T × Prog O R ε α) (s : S) : Prop :=
  th.2.Safe (M.exec i) P.Inv (P.rely i) (fun s s' => ∀ j, j ≠ i → P.rely j s s') (P.Out i th.1) s

/-- The invariant of all processes: that of the state, and every program safe. -/
def AllGood (p : Processes ι S T O R ε α) : Prop :=
  P.Inv p.shared ∧ ∀ i th, p.running i = some th → P.Good i th p.shared

omit [DecidableEq ι] in
theorem good_rely {i : ι} {th : T × Prog O R ε α} {s s' : S} (h : P.Good i th s)
    (hs : P.rely i s s') : P.Good i th s' :=
  Prog.safe_stable (P.trans i) (P.stable i th.1) h hs

/-- A step of one process: the others are safe as before. -/
theorem allGood_update {s s' : S} {running : ι → Option (T × Prog O R ε α)} {i : ι}
    {next : Option (T × Prog O R ε α)}
    (h : ∀ j th, running j = some th → P.Good j th s) (hi : P.Inv s')
    (hothers : ∀ j, j ≠ i → P.rely j s s') (hnext : ∀ th, next = some th → P.Good i th s') :
    P.AllGood ⟨s', Function.update running i next⟩ := by
  refine ⟨hi, fun j th hj => ?_⟩
  change Function.update running i next j = some th at hj
  by_cases hij : j = i
  · subst hij
    rw [Function.update_self] at hj
    exact hnext th hj
  · rw [Function.update_of_ne hij] at hj
    exact P.good_rely (h j th hj) (hothers j hij)

theorem step_good {p q : Processes ι S T O R ε α} (h : M.Step p q) (hp : P.AllGood p) :
    P.AllGood q := by
  obtain ⟨hinv, hrun⟩ := hp
  cases h with
  | env h =>
    obtain ⟨hinv', hrely⟩ := P.env _ _ hinv h
    exact ⟨hinv', fun i th hi => P.good_rely (hrun i th hi) (hrely i)⟩
  | start hi h =>
    apply P.allGood_update hrun hinv fun j _ => P.refl j _
    rintro _ ⟨⟩
    exact P.start _ _ _ _ h hinv
  | run hi h =>
    obtain ⟨hinv', hothers, hk⟩ := hrun _ _ hi _ (P.refl _ _) hinv _ _ h
    apply P.allGood_update hrun hinv' hothers
    rintro _ ⟨⟩
    exact hk
  | @finish s _ _ i t x hi h =>
    have hout : P.Out i t x s := by
      cases x with
      | ok a => exact hrun _ _ hi
      | error e => exact hrun _ _ hi
    obtain ⟨hinv', hothers⟩ := P.finish _ _ _ _ _ hinv hout h
    exact P.allGood_update hrun hinv' hothers (by simp)
  | drop h =>
    obtain ⟨hinv', hothers⟩ := P.drop _ _ _ hinv h
    exact P.allGood_update hrun hinv' hothers (by simp)

theorem reachable_good {s₀ : S} (h₀ : P.Inv s₀) {p : Processes ι S T O R ε α}
    (h : M.Reachable s₀ p) : P.AllGood p := by
  induction h with
  | refl => exact ⟨h₀, by simp⟩
  | tail _ hstep ih => exact P.step_good hstep ih

theorem reachable_inv {s₀ : S} (h₀ : P.Inv s₀) {p : Processes ι S T O R ε α}
    (h : M.Reachable s₀ p) : P.Inv p.shared :=
  (P.reachable_good h₀ h).1

end Proof

end ProcSys

end Siglog.Concurrent
