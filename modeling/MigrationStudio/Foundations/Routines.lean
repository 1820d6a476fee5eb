import Mathlib.Logic.Function.Basic
import MigrationStudio.Foundations.LabelledRuns

/-!
# Routines that await writes and calls

A coroutine runs alone up to its next `await`.  What it awaits is a write to a store that it shares
with others, or a call whose answer comes from outside; either may raise, and the coroutine may
handle what is raised.  `Routine` is such a coroutine as a tree: what it awaits next, and how it
goes on.

* `Routine`, a monad with exceptions; `Routine.await`, `Routine.ask`: its two operations.
* `Contract`: which writes a routine may make, which of them may fail, and what they do to a state
  that is kept for the routine alone.
* `Routine.wp`: the states from which a routine keeps a contract and ends in a postcondition, for
  all answers; `wp_bind`, `wp_tryCatch`, `wp_await`, `wp_ask` and `wp_mono` are its rules.
* `Pool`: routines that run side by side on a store, with `Pool.step`.
* `Share`: a part of the store for each routine; `Share.Kept.step`: as long as nobody else touches
  it, every write that the routine makes is one that its contract allows.
* `Mark`: a mark in the store; `Mark.debtor_of_run`: when every routine that sets it takes it away
  again before it ends, it is only there while a routine runs that has still to do so.
-/

namespace MigrationStudio
namespace Foundations

/-- What a coroutine awaits next, and how it goes on. -/
inductive Routine (W Q : Type) (Ans : Q → Type) (E R : Type) where
  | pure (r : R)
  | raise (e : E)
  | write (w : W) (next : Except E Unit → Routine W Q Ans E R)
  | call (q : Q) (next : Except E (Ans q) → Routine W Q Ans E R)

namespace Routine

variable {W Q : Type} {Ans : Q → Type} {E R S : Type}

/-- One routine behind another. -/
def bind : Routine W Q Ans E R → (R → Routine W Q Ans E S) → Routine W Q Ans E S
  | .pure r, f => f r
  | .raise e, _ => .raise e
  | .write w next, f => .write w fun x => (next x).bind f
  | .call q next, f => .call q fun x => (next x).bind f

/-- `try`, with an `except` that takes every exception. -/
def handle (h : E → Routine W Q Ans E R) : Routine W Q Ans E R → Routine W Q Ans E R
  | .pure r => .pure r
  | .raise e => h e
  | .write w next => .write w fun x => (next x).handle h
  | .call q next => .call q fun x => (next x).handle h

instance : Monad (Routine W Q Ans E) where
  pure := Routine.pure
  bind := bind

instance : MonadExceptOf E (Routine W Q Ans E) where
  throw := Routine.raise
  tryCatch r h := r.handle h

/-- The write is awaited, and what it raises is raised. -/
def await (w : W) : Routine W Q Ans E Unit :=
  .write w fun
    | .ok () => .pure ()
    | .error e => .raise e

/-- The call is awaited, and what it raises is raised. -/
def ask (q : Q) : Routine W Q Ans E (Ans q) :=
  .call q fun
    | .ok a => .pure a
    | .error e => .raise e

/-- The routine has returned or raised. -/
def ended : Routine W Q Ans E R → Bool
  | .pure _ | .raise _ => true
  | .write _ _ | .call _ _ => false

end Routine

/-! ## Contracts -/

/-- The writes that a routine may make in a state that is kept for it, those among them that may
fail, and what a write that does not fail makes of the state. -/
structure Contract (W σ : Type) where
  allowed : W → σ → Prop
  fallible : W → Prop
  effect : W → σ → σ

namespace Routine

variable {W Q : Type} {Ans : Q → Type} {E R S σ : Type} (c : Contract W σ)

/-- From the state, the routine keeps the contract whatever is answered, and ends in `post`. -/
def wp (post : Except E R → σ → Prop) : Routine W Q Ans E R → σ → Prop
  | .pure r, s => post (.ok r) s
  | .raise e, s => post (.error e) s
  | .write w next, s =>
      c.allowed w s ∧ wp post (next (.ok ())) (c.effect w s) ∧
        (c.fallible w → ∀ e, wp post (next (.error e)) s)
  | .call _ next, s => ∀ x, wp post (next x) s

variable {c} {post post' : Except E R → σ → Prop} {s : σ}

@[simp] theorem wp_pure {r : R} :
    (Pure.pure r : Routine W Q Ans E R).wp c post s ↔ post (.ok r) s :=
  Iff.rfl

@[simp] theorem wp_throw {e : E} :
    (throw e : Routine W Q Ans E R).wp c post s ↔ post (.error e) s :=
  Iff.rfl

theorem wp_mono (h : ∀ x s, post x s → post' x s) {r : Routine W Q Ans E R}
    (hr : r.wp c post s) : r.wp c post' s := by
  induction r generalizing s with
  | pure r => exact h _ _ hr
  | raise e => exact h _ _ hr
  | write w next ih =>
      exact ⟨hr.1, ih (.ok ()) hr.2.1, fun hw e => ih (.error e) (hr.2.2 hw e)⟩
  | call q next ih => exact fun x => ih x (hr x)

/-- **One routine behind another**: the first ends where the second begins, or raises. -/
@[simp] theorem wp_bind {r : Routine W Q Ans E R} {f : R → Routine W Q Ans E S}
    {post : Except E S → σ → Prop} :
    (r >>= f).wp c post s ↔
      r.wp c (fun x s =>
        match x with
        | .ok a => (f a).wp c post s
        | .error e => post (.error e) s) s := by
  show (r.bind f).wp c post s ↔ _
  induction r generalizing s with
  | pure r => exact Iff.rfl
  | raise e => exact Iff.rfl
  | write w next ih =>
      exact and_congr_right fun _ => and_congr (ih (.ok ()))
        (imp_congr_right fun _ => forall_congr' fun e => ih (.error e))
  | call q next ih => exact forall_congr' fun x => ih x

/-- **`try`**: what is raised is handled in the state in which it was raised. -/
@[simp] theorem wp_tryCatch {r : Routine W Q Ans E R} {h : E → Routine W Q Ans E R} :
    (tryCatch r h).wp c post s ↔
      r.wp c (fun x s =>
        match x with
        | .ok a => post (.ok a) s
        | .error e => (h e).wp c post s) s := by
  show (r.handle h).wp c post s ↔ _
  induction r generalizing s with
  | pure r => exact Iff.rfl
  | raise e => exact Iff.rfl
  | write w next ih =>
      exact and_congr_right fun _ => and_congr (ih (.ok ()))
        (imp_congr_right fun _ => forall_congr' fun e => ih (.error e))
  | call q next ih => exact forall_congr' fun x => ih x

@[simp] theorem wp_await {w : W} {post : Except E Unit → σ → Prop} :
    (await w : Routine W Q Ans E Unit).wp c post s ↔
      c.allowed w s ∧ post (.ok ()) (c.effect w s) ∧ (c.fallible w → ∀ e, post (.error e) s) :=
  Iff.rfl

@[simp] theorem wp_ask {q : Q} {post : Except E (Ans q) → σ → Prop} :
    (ask q : Routine W Q Ans E (Ans q)).wp c post s ↔
      (∀ a, post (.ok a) s) ∧ ∀ e, post (.error e) s := by
  constructor
  · intro h
    exact ⟨fun a => h (.ok a), fun e => h (.error e)⟩
  · rintro ⟨hok, herror⟩ (e | a)
    · exact herror e
    · exact hok a

end Routine

/-! ## Routines side by side -/

/-- The store, and the routines that run, with what each was begun for. -/
structure Pool (T O W Q : Type) (Ans : Q → Type) (E R D : Type) where
  store : D
  running : T → Option (O × Routine W Q Ans E R)

/-- What happens next: a routine begins, what a routine awaits is committed, fails or is answered, a
routine is cancelled, or somebody else writes to the store. -/
inductive PoolLabel (T O W Q : Type) (Ans : Q → Type) (E : Type) where
  | begin (t : T) (op : O)
  | commit (t : T)
  | fail (t : T) (e : E)
  | answer (t : T) (q : Q) (x : Except E (Ans q))
  | cancel (t : T)
  | other (w : W)

namespace Pool

variable {T O W Q : Type} {Ans : Q → Type} {E R D : Type} [DecidableEq T] [DecidableEq Q]
variable (program : O → Routine W Q Ans E R) (apply : W → D → D)

/-- A routine goes on to its next `await`, or ends. -/
def goOn (p : Pool T O W Q Ans E R D) (t : T) (op : O) (r : Routine W Q Ans E R) :
    Pool T O W Q Ans E R D :=
  { p with running := Function.update p.running t (if r.ended then none else some (op, r)) }

/-- The step of a pool. -/
def step (p : Pool T O W Q Ans E R D) : PoolLabel T O W Q Ans E → Option (Pool T O W Q Ans E R D)
  | .begin t op => if (p.running t).isNone then some (p.goOn t op (program op)) else none
  | .commit t =>
      match p.running t with
      | some (op, .write w next) =>
          some ({ p with store := apply w p.store }.goOn t op (next (.ok ())))
      | _ => none
  | .fail t e =>
      match p.running t with
      | some (op, .write _ next) => some (p.goOn t op (next (.error e)))
      | _ => none
  | .answer t q x =>
      match p.running t with
      | some (op, .call q' next) => if h : q = q' then some (p.goOn t op (next (h ▸ x))) else none
      | _ => none
  | .cancel t => some { p with running := Function.update p.running t none }
  | .other w => some { p with store := apply w p.store }

variable {program apply} {p p' : Pool T O W Q Ans E R D} {l : PoolLabel T O W Q Ans E}

/-- **What a step does.** -/
theorem step_cases (h : p.step program apply l = some p') :
    (∃ t op, l = .begin t op ∧ p.running t = none ∧ p' = p.goOn t op (program op)) ∨
    (∃ t op w next, l = .commit t ∧ p.running t = some (op, .write w next) ∧
      p' = { p with store := apply w p.store }.goOn t op (next (.ok ()))) ∨
    (∃ t e op w next, l = .fail t e ∧ p.running t = some (op, .write w next) ∧
      p' = p.goOn t op (next (.error e))) ∨
    (∃ t q x op next, l = .answer t q x ∧ p.running t = some (op, .call q next) ∧
      p' = p.goOn t op (next x)) ∨
    (∃ t, l = .cancel t ∧ p' = { p with running := Function.update p.running t none }) ∨
    ∃ w, l = .other w ∧ p' = { p with store := apply w p.store } := by
  cases l with
  | begin t op =>
    rw [step] at h
    split_ifs at h with hnone
    exact .inl ⟨t, op, rfl, Option.isNone_iff_eq_none.mp hnone, (Option.some.inj h).symm⟩
  | commit t =>
    rw [step] at h
    split at h
    next op w next hrunning =>
      exact .inr (.inl ⟨t, op, w, next, rfl, hrunning, (Option.some.inj h).symm⟩)
    next => cases h
  | fail t e =>
    rw [step] at h
    split at h
    next op w next hrunning =>
      exact .inr (.inr (.inl ⟨t, e, op, w, next, rfl, hrunning, (Option.some.inj h).symm⟩))
    next => cases h
  | answer t q x =>
    rw [step] at h
    split at h
    next op q' next hrunning =>
      split_ifs at h with hq
      subst hq
      exact .inr (.inr (.inr (.inl ⟨t, q, x, op, next, rfl, hrunning, (Option.some.inj h).symm⟩)))
    next => cases h
  | cancel t => exact .inr (.inr (.inr (.inr (.inl ⟨t, rfl, (Option.some.inj h).symm⟩))))
  | other w => exact .inr (.inr (.inr (.inr (.inr ⟨w, rfl, (Option.some.inj h).symm⟩))))

omit [DecidableEq Q] in
theorem running_goOn_self {t : T} {op : O} {r : Routine W Q Ans E R} :
    (p.goOn t op r).running t = if r.ended then none else some (op, r) :=
  Function.update_self ..

omit [DecidableEq Q] in
theorem running_goOn_of_ne {t u : T} {op : O} {r : Routine W Q Ans E R} (h : u ≠ t) :
    (p.goOn t op r).running u = p.running u :=
  Function.update_of_ne h ..

omit [DecidableEq Q] in
/-- What runs behind a step of a routine is the routine itself, or ran before. -/
theorem of_running_goOn {t u : T} {op op' : O} {r r' : Routine W Q Ans E R}
    (h : (p.goOn t op r).running u = some (op', r')) :
    (u = t ∧ op' = op ∧ r' = r) ∨ (u ≠ t ∧ p.running u = some (op', r')) := by
  by_cases hut : u = t
  · subst hut
    rw [running_goOn_self] at h
    split_ifs at h
    obtain ⟨rfl, rfl⟩ := Prod.mk.inj (Option.some.inj h)
    exact .inl ⟨rfl, rfl, rfl⟩
  · exact .inr ⟨hut, (running_goOn_of_ne hut).symm.trans h⟩

omit [DecidableEq Q] in
/-- What runs behind the end of a routine ran before. -/
theorem of_running_cancel {t u : T} {op : O} {r : Routine W Q Ans E R}
    (h : Function.update p.running t none u = some (op, r)) : p.running u = some (op, r) := by
  by_cases hut : u = t
  · subst hut
    rw [Function.update_self] at h
    cases h
  · exact (Function.update_of_ne hut ..).symm.trans h

end Pool

/-! ## Shares of the store -/

/-- What each operation has of the store for itself, and the contract that it keeps there: a write
that is allowed does to the share what the contract says. -/
structure Share {W D : Type} (O σ : Type) (apply : W → D → D) where
  view : O → D → σ
  contract : O → Contract W σ
  view_apply : ∀ op w d, (contract op).allowed w (view op d) →
    view op (apply w d) = (contract op).effect w (view op d)

namespace Share

variable {T O W Q : Type} {Ans : Q → Type} {E R D σ : Type} {apply : W → D → D}
variable (m : Share O σ apply)

/-- From its share, the routine keeps the contract. -/
def Keeps (op : O) (r : Routine W Q Ans E R) (d : D) : Prop :=
  r.wp (m.contract op) (fun _ _ => True) (m.view op d)

/-- Every routine that runs keeps its contract from its share. -/
def Kept (p : Pool T O W Q Ans E R D) : Prop :=
  ∀ t op r, p.running t = some (op, r) → m.Keeps op r p.store

/-- The shares of the routines other than this one are not touched. -/
def Spares (p : Pool T O W Q Ans E R D) (mine : T → Prop) (w : W) : Prop :=
  ∀ u op r, ¬ mine u → p.running u = some (op, r) →
    m.view op (apply w p.store) = m.view op p.store

/-- A routine begins with a share from which it keeps its contract, nobody touches the share of
another, and only writes fail that may. -/
def Apart (program : O → Routine W Q Ans E R) (p : Pool T O W Q Ans E R D) :
    PoolLabel T O W Q Ans E → Prop
  | .begin _ op => m.Keeps op (program op) p.store
  | .commit t => ∀ op w next, p.running t = some (op, .write w next) → m.Spares p (· = t) w
  | .fail t _ => ∀ op w next, p.running t = some (op, .write w next) →
      (m.contract op).fallible w
  | .other w => m.Spares p (fun _ => False) w
  | _ => True

variable {m} {program : O → Routine W Q Ans E R} {p p' : Pool T O W Q Ans E R D}

/-- A routine that is about to write is allowed to. -/
theorem Kept.allowed (h : m.Kept p) {t : T} {op : O} {w : W}
    {next : Except E Unit → Routine W Q Ans E R} (ht : p.running t = some (op, .write w next)) :
    (m.contract op).allowed w (m.view op p.store) :=
  (h t op _ ht).1

variable [DecidableEq T]

/-- A routine goes on, and the shares of the others stay as they are. -/
theorem Kept.goOn (h : m.Kept p) {t : T} {op : O} {r : Routine W Q Ans E R} {d : D}
    (hr : m.Keeps op r d)
    (hspares : ∀ u op' r', u ≠ t → p.running u = some (op', r') →
      m.view op' d = m.view op' p.store) :
    m.Kept ({ p with store := d }.goOn t op r) := by
  intro u op' r' hu
  rcases Pool.of_running_goOn hu with ⟨rfl, rfl, rfl⟩ | ⟨hut, hu'⟩
  · exact hr
  · show r'.wp _ _ (m.view op' d)
    rw [hspares u op' r' hut hu']
    exact h u op' r' hu'

/-- **One step** keeps the routines to their contracts. -/
theorem Kept.step [DecidableEq Q] {l : PoolLabel T O W Q Ans E} (h : m.Kept p)
    (hl : m.Apart program p l) (hstep : p.step program apply l = some p') : m.Kept p' := by
  rcases Pool.step_cases hstep with ⟨t, op, rfl, hnone, rfl⟩ |
    ⟨t, op, w, next, rfl, hrunning, rfl⟩ | ⟨t, e, op, w, next, rfl, hrunning, rfl⟩ |
    ⟨t, q, x, op, next, rfl, hrunning, rfl⟩ | ⟨t, rfl, rfl⟩ | ⟨w, rfl, rfl⟩
  · exact h.goOn hl fun _ _ _ _ _ => rfl
  · refine h.goOn ?_ fun u op' r' hut hu => hl op w next hrunning u op' r' hut hu
    have hwrite := h t op _ hrunning
    show (next (.ok ())).wp _ _ (m.view op (apply w p.store))
    rw [m.view_apply op w p.store hwrite.1]
    exact hwrite.2.1
  · exact h.goOn ((h t op _ hrunning).2.2 (hl op w next hrunning) e) fun _ _ _ _ _ => rfl
  · exact h.goOn (h t op _ hrunning x) fun _ _ _ _ _ => rfl
  · exact fun u op r hu => h u op r (Pool.of_running_cancel hu)
  · intro u op r hu
    show r.wp _ _ (m.view op (apply w p.store))
    rw [hl u op r not_false hu]
    exact h u op r hu

end Share

/-! ## Marks that are taken away again -/

/-- A mark in the store: the writes that set it, the writes that take it away, the operations that
may set it, and the writes of routines that may fail. -/
structure Mark {W D : Type} (O : Type) (apply : W → D → D) where
  marked : D → Prop
  sets : W → Prop
  clears : W → Prop
  mine : O → Prop
  fallible : W → Prop
  decSets : DecidablePred sets
  decClears : DecidablePred clears
  marked_apply : ∀ w d, marked (apply w d) → sets w ∨ (marked d ∧ ¬ clears w)

attribute [instance] Mark.decSets Mark.decClears

namespace Mark

variable {T O W Q : Type} {Ans : Q → Type} {E R D : Type} {apply : W → D → D}
variable (m : Mark O apply)

/-- Whether a routine that has made the write has set the mark and not taken it away. -/
def owes (w : W) (before : Bool) : Bool :=
  if m.sets w then true else if m.clears w then false else before

/-- What is kept for the routine of an operation is whether it owes. -/
def contract (op : O) : Contract W Bool where
  allowed := fun w _ => m.sets w → m.mine op
  fallible := m.fallible
  effect := m.owes

theorem effect_contract (op : O) (w : W) (before : Bool) :
    (m.contract op).effect w before = m.owes w before := rfl

/-- From here the routine of the operation ends without owing. -/
def Settles (op : O) (owing : Bool) (r : Routine W Q Ans E R) : Prop :=
  r.wp (m.contract op) (fun _ owing => owing = false) owing

/-- A routine runs that owes, and its operation may set the mark. -/
def Debtor (p : Pool T O W Q Ans E R D) : Prop :=
  ∃ t op r, p.running t = some (op, r) ∧ m.mine op ∧ m.Settles op true r

/-- Every routine ends without owing, and when the mark is there, some routine owes. -/
structure Kept (p : Pool T O W Q Ans E R D) : Prop where
  settles : ∀ t op r, p.running t = some (op, r) →
    ∃ owing, m.Settles op owing r ∧ (owing = true → m.mine op)
  debtor : m.marked p.store → m.Debtor p

/-- No routine is cancelled, only writes fail that may, and nobody else sets the mark. -/
def Undisturbed (p : Pool T O W Q Ans E R D) : PoolLabel T O W Q Ans E → Prop
  | .fail t _ => ∀ op w next, p.running t = some (op, .write w next) → m.fallible w
  | .cancel _ => False
  | .other w => ¬ m.sets w
  | _ => True

variable {m}

/-- A routine that owes has not ended. -/
theorem Settles.not_ended {op : O} {r : Routine W Q Ans E R} (h : m.Settles op true r) :
    r.ended = false := by
  cases r with
  | pure r => exact absurd h Bool.noConfusion
  | raise e => exact absurd h Bool.noConfusion
  | write w next => rfl
  | call q next => rfl

variable [DecidableEq T]

/-- **A routine goes on.**  `f` is what happens to its debt; if the mark is there afterwards, it was
there and a debt stays, or the routine owes now. -/
theorem Kept.goOn {p : Pool T O W Q Ans E R D} (h : m.Kept p) {t : T} {op : O}
    {r r' : Routine W Q Ans E R} {d : D} {f : Bool → Bool} (hrunning : p.running t = some (op, r))
    (hsettles : ∀ owing, m.Settles op owing r → m.Settles op (f owing) r')
    (hmine : ∀ owing, m.Settles op owing r → (owing = true → m.mine op) →
      f owing = true → m.mine op)
    (hmarked : m.marked d → (m.marked p.store ∧ f true = true) ∨ ∀ owing, f owing = true) :
    m.Kept ({ p with store := d }.goOn t op r') := by
  obtain ⟨owing, howing, hop⟩ := h.settles t op r hrunning
  have hrunning' : r'.ended = false →
      ({ p with store := d }.goOn t op r').running t = some (op, r') := by
    intro hended
    rw [Pool.running_goOn_self, hended]
    rfl
  constructor
  · intro u op' r'' hu
    rcases Pool.of_running_goOn hu with ⟨rfl, rfl, rfl⟩ | ⟨-, hu'⟩
    · exact ⟨f owing, hsettles owing howing, hmine owing howing hop⟩
    · exact h.settles u op' r'' hu'
  · intro hd
    rcases hmarked hd with ⟨hstore, hf⟩ | hf
    · obtain ⟨u, op', r'', hu, hmine', htrue⟩ := h.debtor hstore
      by_cases hut : u = t
      · subst hut
        obtain ⟨rfl, rfl⟩ := Prod.mk.inj (Option.some.inj (hrunning.symm.trans hu))
        have hnext : m.Settles op true r' := hf ▸ hsettles true htrue
        exact ⟨u, op, r', hrunning' hnext.not_ended, hmine', hnext⟩
      · exact ⟨u, op', r'', (Pool.running_goOn_of_ne hut).trans hu, hmine', htrue⟩
    · have hnext : m.Settles op true r' := hf owing ▸ hsettles owing howing
      exact ⟨t, op, r', hrunning' hnext.not_ended, hmine owing howing hop (hf owing), hnext⟩

/-- A routine begins. -/
theorem Kept.begin {p : Pool T O W Q Ans E R D} (h : m.Kept p) {t : T} {op : O}
    {r : Routine W Q Ans E R} (hnone : p.running t = none) (hr : m.Settles op false r) :
    m.Kept (p.goOn t op r) := by
  constructor
  · intro u op' r' hu
    rcases Pool.of_running_goOn hu with ⟨rfl, rfl, rfl⟩ | ⟨-, hu'⟩
    · exact ⟨false, hr, fun hfalse => absurd hfalse Bool.false_ne_true⟩
    · exact h.settles u op' r' hu'
  · intro hmarked
    obtain ⟨u, op', r', hu, hmine, htrue⟩ := h.debtor hmarked
    have hut : u ≠ t := by
      rintro rfl
      exact absurd (hnone.symm.trans hu) nofun
    exact ⟨u, op', r', (Pool.running_goOn_of_ne hut).trans hu, hmine, htrue⟩

variable [DecidableEq Q] {program : O → Routine W Q Ans E R}

/-- **One step** keeps the mark with a routine that owes. -/
theorem Kept.step (hprogram : ∀ op, m.Settles op false (program op))
    {p p' : Pool T O W Q Ans E R D} {l : PoolLabel T O W Q Ans E} (h : m.Kept p)
    (hl : m.Undisturbed p l) (hstep : p.step program apply l = some p') : m.Kept p' := by
  rcases Pool.step_cases hstep with ⟨t, op, rfl, hnone, rfl⟩ |
    ⟨t, op, w, next, rfl, hrunning, rfl⟩ | ⟨t, e, op, w, next, rfl, hrunning, rfl⟩ |
    ⟨t, q, x, op, next, rfl, hrunning, rfl⟩ | ⟨t, rfl, rfl⟩ | ⟨w, rfl, rfl⟩
  · exact h.begin hnone (hprogram op)
  · refine h.goOn (f := m.owes w) hrunning (fun owing hr => hr.2.1) (fun owing hr hop hw => ?_)
      fun hmarked => ?_
    · unfold owes at hw
      split_ifs at hw with hsets
      · exact hr.1 hsets
      · exact hop hw
    · unfold owes
      rcases m.marked_apply w p.store hmarked with hsets | ⟨hstore, hclears⟩
      · exact Or.inr fun _ => if_pos hsets
      · by_cases hsets : m.sets w
        · exact Or.inr fun _ => if_pos hsets
        · exact Or.inl ⟨hstore, by rw [if_neg hsets, if_neg hclears]⟩
  · exact h.goOn (f := id) hrunning (fun owing hr => hr.2.2 (hl op w next hrunning) e)
      (fun _ _ hop => hop) fun hmarked => Or.inl ⟨hmarked, rfl⟩
  · exact h.goOn (f := id) hrunning (fun owing hr => hr x) (fun _ _ hop => hop)
      fun hmarked => Or.inl ⟨hmarked, rfl⟩
  · exact absurd hl id
  · refine ⟨h.settles, fun hmarked => h.debtor ?_⟩
    exact ((m.marked_apply w p.store hmarked).resolve_left hl).1

/-- **The mark is there only while a routine runs that has still to take it away**, when each
routine alone takes away the marks that it sets. -/
theorem debtor_of_run (hprogram : ∀ op, m.Settles op false (program op))
    {d : D} (hd : ¬ m.marked d) {ls : List (PoolLabel T O W Q Ans E)} {p : Pool T O W Q Ans E R D}
    (hrun : runLabels (Pool.step program apply) ⟨d, fun _ => none⟩ ls = some p)
    (halong : Along (Pool.step program apply) m.Undisturbed ⟨d, fun _ => none⟩ ls)
    (hmarked : m.marked p.store) : m.Debtor p := by
  have hkept : m.Kept (⟨d, fun _ => none⟩ : Pool T O W Q Ans E R D) :=
    ⟨fun t op r hnone => absurd hnone nofun, fun hd' => absurd hd' hd⟩
  exact (invariant_runLabels (fun _ _ _ h hl hstep => Kept.step hprogram h hl hstep) hkept halong
    hrun).debtor hmarked

end Mark

end Foundations
end MigrationStudio
