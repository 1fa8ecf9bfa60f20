import Siglog.Concurrent.Program
import Mathlib.Data.List.Nodup

/-! Many programs at a time, of which so many are in flight. Those in flight move one
operation at a time, in an order that a schedule gives. Results come in the order in
which the programs end, and the first error ends all of them. -/

namespace Siglog.Concurrent

/-- Which of the programs in flight moves next, and which operations of those that are
dropped after an error still take place. -/
structure Schedule where
  turns : List ℕ
  late : List Bool

namespace Prog

variable {O : Type} {R : O → Type} {ε α τ : Type}

/-- Programs that have not been started. -/
def waiting (f : τ → Prog O R ε α) (queue : List τ) : List (τ × Prog O R ε α) :=
  queue.map fun t => (t, f t)

/-- Start as many programs as the limit allows. -/
def refill (f : τ → Prog O R ε α) (limit : ℕ) (queue : List τ) (active : List (τ × Prog O R ε α)) :
    List τ × List (τ × Prog O R ε α) :=
  (queue.drop (limit - active.length), active ++ waiting f (queue.take (limit - active.length)))

/-- What was in flight when another program failed. -/
def dropped (e : ε) : List Bool → List (τ × Prog O R ε α) → Prog O R ε (List α)
  | late :: lates, (_, p) :: active =>
    match late, p with
    | true, .op o _ => .op o fun _ => dropped e lates active
    | _, _ => dropped e lates active
  | _, _ => .fail e

/-- One program after the other. -/
def inTurn : List (τ × Prog O R ε α) → List α → Prog O R ε (List α)
  | [], done => .pure done
  | (_, p) :: active, done => p.bind fun a => inTurn active (done ++ [a])

/-- The loop of `bufferUnordered`. When the turns are used up, the rest runs in order. -/
def buffered (f : τ → Prog O R ε α) (limit : ℕ) (late : List Bool) :
    List ℕ → List τ → List (τ × Prog O R ε α) → List α → Prog O R ε (List α)
  | [], queue, active, done => inTurn (active ++ waiting f queue) done
  | turn :: turns, queue, active, done =>
    let (queue, active) := refill f limit queue active
    let i := turn % active.length
    match active.drop i with
    | [] => .pure done
    | (_, .pure a) :: rest =>
      buffered f limit late turns queue (active.take i ++ rest) (done ++ [a])
    | (_, .fail e) :: rest => dropped e late (active.take i ++ rest)
    | (t, .op o k) :: rest =>
      .op o fun r => buffered f limit late turns queue (active.take i ++ (t, k r) :: rest) done

/-- `buffer_unordered`, with all results taken in until the first error. -/
def bufferUnordered (schedule : Schedule) (f : τ → Prog O R ε α) (limit : ℕ) (items : List τ) :
    Prog O R ε (List α) :=
  buffered f limit schedule.late schedule.turns items [] []

/-! ### Programs that do not disturb each other -/

variable {S : Type} {exec : S → (o : O) → R o → S → Prop}

/-- Each item has an assertion about its program, which the operations of the others keep. -/
structure Apart (exec : S → (o : O) → R o → S → Prop) (J : O → S → Prop) (Inv : S → Prop)
    (I : τ → Prog O R ε α → S → Prop) : Prop where
  now : ∀ t o k s, Inv s → I t (.op o k) s → J o s
  step : ∀ t o k s, Inv s → I t (.op o k) s → ∀ r s', exec s o r s' →
    Inv s' ∧ I t (k r) s' ∧ ∀ t', t' ≠ t → ∀ p, I t' p s → I t' p s'

variable {J : O → S → Prop} {Inv : S → Prop} {I : τ → Prog O R ε α → S → Prop}

/-- An operation of one program, seen from all of them. -/
theorem Apart.move (h : Apart exec J Inv I) (l₁ : List (τ × Prog O R ε α))
    {l₂ : List (τ × Prog O R ε α)} {t : τ} {o : O}
    {k : R o → Prog O R ε α}
    (hnodup : ((l₁ ++ (t, .op o k) :: l₂).map Prod.fst).Nodup) {s : S} (hi : Inv s)
    (hall : ∀ x ∈ l₁ ++ (t, .op o k) :: l₂, I x.1 x.2 s) {r : R o} {s' : S} (he : exec s o r s') :
    Inv s' ∧ ∀ x ∈ l₁ ++ (t, k r) :: l₂, I x.1 x.2 s' := by
  obtain ⟨hi', hk, hothers⟩ := h.step t o k s hi (hall (t, .op o k) (by simp)) r s' he
  rw [List.map_append, List.map_cons, List.nodup_middle, List.nodup_cons,
    ← List.map_append] at hnodup
  have hkeep : ∀ x ∈ l₁ ++ l₂, I x.1 x.2 s' := by
    intro x hx
    apply hothers
    · intro heq
      exact hnodup.1 (List.mem_map.mpr ⟨x, hx, heq⟩)
    · apply hall x
      rcases List.mem_append.mp hx with hx | hx
      · simp [hx]
      · simp [hx]
  refine ⟨hi', fun x hx => ?_⟩
  rcases List.mem_append.mp hx with hx | hx
  · exact hkeep x (by simp [hx])
  · rcases List.mem_cons.mp hx with rfl | hx
    · exact hk
    · exact hkeep x (by simp [hx])

/-- What all programs together end in. -/
def AllEnd (Inv : S → Prop) (I : τ → Prog O R ε α → S → Prop) (items : List τ) :
    Except ε (List α) → S → Prop
  | .ok as, s =>
    Inv s ∧ ∃ ends : List (τ × α), ends.map Prod.snd = as ∧ (ends.map Prod.fst).Perm items ∧
      ∀ d ∈ ends, I d.1 (.pure d.2) s
  | .error e, s => Inv s ∧ ∃ t ∈ items, I t (.fail e) s

/-- Programs that have ended. -/
def ended (ends : List (τ × α)) : List (τ × Prog O R ε α) := ends.map fun d => (d.1, .pure d.2)

theorem map_fst_ended (ends : List (τ × α)) :
    (ended ends : List (τ × Prog O R ε α)).map Prod.fst = ends.map Prod.fst := by
  simp [ended]

variable {items : List τ}

theorem allEnd_ok {ends : List (τ × α)} (hperm : (ends.map Prod.fst).Perm items) {s : S}
    (hi : Inv s) (hall : ∀ x ∈ (ended ends : List (τ × Prog O R ε α)), I x.1 x.2 s) :
    AllEnd Inv I items (.ok (ends.map Prod.snd)) s :=
  ⟨hi, ends, rfl, hperm,
    fun d hd => hall (d.1, .pure d.2) (List.mem_map_of_mem (f := fun d => (d.1, Prog.pure d.2)) hd)⟩

theorem along_dropped (h : Apart exec J Inv I) {t : τ} {e : ε} (ht : t ∈ items) (late : List Bool)
    {active : List (τ × Prog O R ε α)} (hnodup : (((t, .fail e) :: active).map Prod.fst).Nodup)
    {s : S} (hi : Inv s) (hall : ∀ x ∈ (t, .fail e) :: active, I x.1 x.2 s) :
    (dropped e late active).Along exec J (AllEnd Inv I items) s := by
  have hfail : ∀ {s : S}, Inv s → I t (.fail e) s → AllEnd Inv I items (.error e) s :=
    fun hi hI => ⟨hi, t, ht, hI⟩
  induction late generalizing active s with
  | nil => exact hfail hi (hall (t, .fail e) (by simp))
  | cons late lates ih =>
    cases active with
    | nil => exact hfail hi (hall (t, .fail e) (by simp))
    | cons x active =>
      have hnodup' : (((t, .fail e) :: active).map Prod.fst).Nodup :=
        hnodup.sublist (((List.sublist_cons_self x active).cons_cons (t, .fail e)).map _)
      have hskip : (dropped e lates active).Along exec J (AllEnd Inv I items) s := by
        apply ih hnodup' hi
        intro y hy
        apply hall y
        rcases List.mem_cons.mp hy with rfl | hy
        · simp
        · simp [hy]
      obtain ⟨t', p⟩ := x
      cases late with
      | false => exact hskip
      | true =>
        cases p with
        | pure a => exact hskip
        | fail e' => exact hskip
        | op o k =>
          refine ⟨h.now t' o k s hi (hall (t', .op o k) (by simp)), fun r s' he => ?_⟩
          obtain ⟨hi', hall'⟩ := h.move [(t, .fail e)] hnodup hi hall he
          apply ih hnodup' hi'
          intro y hy
          apply hall' y
          rcases List.mem_cons.mp hy with rfl | hy
          · simp
          · simp [hy]

theorem nodup_parts (hitems : items.Nodup) {ends : List (τ × α)} {active : List (τ × Prog O R ε α)}
    (hperm : (ends.map Prod.fst ++ active.map Prod.fst).Perm items) :
    ((ended ends ++ active).map Prod.fst).Nodup := by
  rw [List.map_append, map_fst_ended]
  exact hperm.nodup_iff.mpr hitems

theorem along_inTurn (h : Apart exec J Inv I) (hitems : items.Nodup)
    {active : List (τ × Prog O R ε α)}
    {ends : List (τ × α)} (hperm : (ends.map Prod.fst ++ active.map Prod.fst).Perm items) {s : S}
    (hi : Inv s) (hall : ∀ x ∈ ended ends ++ active, I x.1 x.2 s) :
    (inTurn active (ends.map Prod.snd)).Along exec J (AllEnd Inv I items) s := by
  induction active generalizing ends s with
  | nil =>
    simp only [List.map_nil, List.append_nil] at hperm hall
    exact allEnd_ok hperm hi hall
  | cons x active ih =>
    obtain ⟨t, p⟩ := x
    rw [inTurn]
    replace hperm : (ends.map Prod.fst ++ t :: active.map Prod.fst).Perm items := hperm
    induction p generalizing s with
    | pure a =>
      have hends : ended (ends ++ [(t, a)]) ++ active = ended ends ++ (t, .pure a) :: active := by
        simp [ended]
      rw [pure_bind, show ends.map Prod.snd ++ [a] = (ends ++ [(t, a)]).map Prod.snd by simp]
      apply ih
      · simpa using hperm
      · exact hi
      · rw [hends]
        exact hall
    | fail e =>
      refine ⟨hi, t, ?_, hall (t, .fail e) (by simp)⟩
      exact hperm.mem_iff.mp (by simp)
    | op o k ihk =>
      refine ⟨h.now t o k s hi (hall (t, .op o k) (by simp)), fun r s' he => ?_⟩
      obtain ⟨hi', hall'⟩ := h.move _ (nodup_parts hitems hperm) hi hall he
      exact ihk r hi' hall'

theorem map_fst_waiting (f : τ → Prog O R ε α) (queue : List τ) :
    (waiting f queue).map Prod.fst = queue := by
  simp [waiting, Function.comp_def]

/-- Starting programs does not change which programs there are. -/
theorem refill_append (f : τ → Prog O R ε α) (limit : ℕ) (queue : List τ)
    (active : List (τ × Prog O R ε α)) :
    (refill f limit queue active).2 ++ waiting f (refill f limit queue active).1 = active ++
      waiting f queue := by
  rw [refill, waiting, waiting, waiting, List.append_assoc, ← List.map_append,
    List.take_append_drop]

theorem refill_nil {f : τ → Prog O R ε α} {limit : ℕ} (hlimit : 0 < limit) {queue : List τ}
    {active : List (τ × Prog O R ε α)} (h : (refill f limit queue active).2 = []) :
    active ++ waiting f queue = [] := by
  obtain ⟨rfl, hqueue⟩ := List.append_eq_nil_iff.mp h
  rw [waiting, List.map_eq_nil_iff, List.length_nil, Nat.sub_zero, List.take_eq_nil_iff] at hqueue
  rcases hqueue with hzero | rfl
  · omega
  · rfl

theorem along_buffered (h : Apart exec J Inv I) (hitems : items.Nodup) (f : τ → Prog O R ε α)
    {limit : ℕ} (hlimit : 0 < limit)
    (late : List Bool) (turns : List ℕ) {queue : List τ} {active : List (τ × Prog O R ε α)}
    {ends : List (τ × α)}
    (hperm : (ends.map Prod.fst ++ (active ++ waiting f queue).map Prod.fst).Perm items) {s : S}
    (hi : Inv s) (hall : ∀ x ∈ ended ends ++ (active ++ waiting f queue), I x.1 x.2 s) :
    (buffered f limit late turns queue active (ends.map Prod.snd)).Along exec J (AllEnd Inv I items)
      s := by
  induction turns generalizing queue active ends s with
  | nil =>
    rw [buffered]
    exact along_inTurn h hitems hperm hi hall
  | cons turn turns ih =>
    rw [buffered]
    have hnil := @refill_nil _ _ _ _ _ f limit hlimit queue active
    rw [← refill_append f limit] at hperm hall hnil
    generalize refill f limit queue active = next at hperm hall hnil
    obtain ⟨queue, active⟩ := next
    dsimp only at hperm hall hnil ⊢
    generalize hturn : turn % active.length = i
    have hsplit := List.take_append_drop i active
    cases hdrop : active.drop i with
    | nil =>
      -- nothing is in flight only if nothing is left
      have hempty : active = [] := by
        by_contra hne
        have := Nat.mod_lt turn (List.length_pos_iff.mpr hne)
        rw [List.drop_eq_nil_iff] at hdrop
        omega
      rw [hnil hempty] at hperm hall
      simp only [List.map_nil, List.append_nil] at hperm hall
      exact allEnd_ok hperm hi hall
    | cons x rest =>
      obtain ⟨t, p⟩ := x
      rw [hdrop] at hsplit
      generalize active.take i = front at hsplit
      subst hsplit
      cases p with
      | pure a =>
        dsimp only
        rw [show ends.map Prod.snd ++ [a] = (ends ++ [(t, a)]).map Prod.snd by simp]
        apply ih
        · refine List.Perm.trans ?_ hperm
          simp only [List.map_append, List.map_cons, List.map_nil, List.append_assoc,
            List.cons_append, List.nil_append]
          exact List.Perm.append_left _ List.perm_middle.symm
        · exact hi
        · intro y hy
          apply hall y
          simp only [ended, List.map_append, List.map_cons, List.map_nil, List.mem_append,
            List.mem_cons, List.not_mem_nil, or_false] at hy ⊢
          tauto
      | fail e =>
        have hnodup := nodup_parts hitems hperm
        simp only [List.append_assoc, List.cons_append] at hnodup hall
        have ht : t ∈ items := hperm.mem_iff.mp (by simp)
        apply along_dropped h ht late ?_ hi
        · intro y hy
          apply hall y
          simp only [List.mem_append, List.mem_cons] at hy ⊢
          tauto
        · rw [← List.append_assoc, List.map_append, List.map_cons, List.nodup_middle,
            ← List.map_append, ← List.map_cons] at hnodup
          refine hnodup.sublist (List.Sublist.map _ (List.Sublist.cons_cons _ ?_))
          rw [List.append_assoc]
          exact (List.Sublist.append_left (List.sublist_append_left _ _) _).trans
            (List.sublist_append_right _ _)
      | op o k =>
        have hnodup := nodup_parts hitems hperm
        refine ⟨h.now t o k s hi (hall (t, .op o k) (by simp)), fun r s' he => ?_⟩
        simp only [List.append_assoc, List.cons_append] at hnodup hall
        rw [← List.append_assoc] at hnodup hall
        obtain ⟨hi', hall'⟩ := h.move _ hnodup hi hall he
        apply ih
        · simpa using hperm
        · exact hi'
        · intro y hy
          apply hall' y
          simpa [List.append_assoc] using hy

/-- Programs that do not disturb each other end as each does, however they are interleaved. -/
theorem along_bufferUnordered (h : Apart exec J Inv I) (schedule : Schedule) (f : τ → Prog O R ε α)
    {limit : ℕ} (hlimit : 0 < limit) (hitems : items.Nodup) {s : S} (hi : Inv s)
    (hall : ∀ t ∈ items, I t (f t) s) :
    (bufferUnordered schedule f limit items).Along exec J (AllEnd Inv I items) s := by
  change (buffered f limit schedule.late schedule.turns items []
    (([] : List (τ × α)).map Prod.snd)).Along exec J _ s
  apply along_buffered h hitems f hlimit
  · simp [map_fst_waiting]
  · exact hi
  · intro x hx
    simp only [ended, List.map_nil, List.nil_append, waiting, List.mem_map] at hx
    obtain ⟨t, ht, rfl⟩ := hx
    exact hall t ht

end Prog

end Siglog.Concurrent
