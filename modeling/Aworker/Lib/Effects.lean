/-
  Aworker.Lib.Effects — computations that change a state and may throw.

  What was done to the state before a throw stays done: `exec` gives the value or the
  error, and in both cases the state that is left.

  - `exec_bind`, `exec_tryCatch`, `exec_tryFinally`: how runs compose. A `catch` block starts
    from what the error left. A `finally` block runs after a value and after an error, and the
    error goes on after it.
  Also `Keeps`, `Moves`.
-/

import Mathlib

namespace Aworker.Lib

variable {ε σ τ α β : Type}

abbrev Eff (ε σ α : Type) : Type := ExceptT ε (StateM σ) α

def exec (x : Eff ε σ α) (s : σ) : Except ε α × σ := StateT.run (ExceptT.run x) s

@[simp] theorem exec_pure (a : α) (s : σ) : exec (pure a : Eff ε σ α) s = (.ok a, s) := rfl

@[simp] theorem exec_throw (e : ε) (s : σ) : exec (throw e : Eff ε σ α) s = (.error e, s) := rfl

@[simp] theorem exec_get (s : σ) : exec (getThe σ : Eff ε σ σ) s = (.ok s, s) := rfl

@[simp] theorem exec_modify (f : σ → σ) (s : σ) : exec (modify f : Eff ε σ Unit) s = (.ok (), f s) := rfl

@[simp] theorem exec_ofExcept (x : Except ε α) (s : σ) : exec (ofExcept x : Eff ε σ α) s = (x, s) := by
  cases x with
  | error e => rfl
  | ok a => rfl

theorem exec_bind (x : Eff ε σ α) (f : α → Eff ε σ β) (s : σ) :
    exec (x >>= f) s = match exec x s with
      | (.ok a, s') => exec (f a) s'
      | (.error e, s') => (.error e, s') := by
  show StateT.run (ExceptT.run x >>= ExceptT.bindCont f) s = _
  unfold exec
  rcases h : StateT.run (ExceptT.run x) s with ⟨r, s'⟩
  rw [StateT.run_bind, h]
  cases r with
  | error e => rfl
  | ok a => rfl

variable {x : Eff ε σ α} {f : α → Eff ε σ β} {s s' : σ} {a : α}

theorem exec_bind_ok (h : exec x s = (.ok a, s')) : exec (x >>= f) s = exec (f a) s' := by
  rw [exec_bind, h]

variable {e : ε}

theorem exec_bind_error (h : exec x s = (.error e, s')) : exec (x >>= f) s = (.error e, s') := by
  rw [exec_bind, h]

/-- A block that ends well: its first part did, and the rest with its value. -/
theorem exec_bind_eq_ok {s'' : σ} {b : β} :
    exec (x >>= f) s = (.ok b, s'') ↔ ∃ a s', exec x s = (.ok a, s') ∧ exec (f a) s' = (.ok b, s'') := by
  rw [exec_bind]
  rcases exec x s with ⟨r, s'⟩
  cases r with
  | error e => simp
  | ok a => simp

theorem exec_forM_cons (f : α → Eff ε σ Unit) (a : α) (as : List α) (s : σ) :
    exec ((a :: as).forM f) s = exec (f a >>= fun _ => as.forM f) s := rfl

/-- `if (c) throw e;` -/
def throwIf (c : Prop) [Decidable c] (e : ε) : Eff ε σ Unit := if c then throw e else pure ()

variable {c : Prop}

theorem exec_throwIf_bind [Decidable c] (e : ε) (f : Unit → Eff ε σ β) (s : σ) :
    exec (throwIf c e >>= f) s = if c then (.error e, s) else exec (f ()) s := by
  unfold throwIf
  split
  · exact exec_bind_error rfl
  · exact exec_bind_ok rfl

theorem exec_tryCatch (x : Eff ε σ α) (handler : ε → Eff ε σ α) (s : σ) :
    exec (tryCatch x handler) s = match exec x s with
      | (.ok a, s') => (.ok a, s')
      | (.error e, s') => exec (handler e) s' := by
  show StateT.run (ExceptT.run x >>= fun r => match r with
    | .ok a => pure (.ok a)
    | .error e => handler e) s = _
  unfold exec
  rcases h : StateT.run (ExceptT.run x) s with ⟨r, s'⟩
  rw [StateT.run_bind, h]
  cases r with
  | error e => rfl
  | ok a => rfl

theorem exec_tryFinally (x : Eff ε σ α) (fin : Eff ε σ β) (s : σ) :
    exec (tryFinally x fin) s = match exec fin (exec x s).2 with
      | (.ok _, s') => ((exec x s).1, s')
      | (.error e, s') => (.error e, s') := by
  unfold exec tryFinally
  rcases h : StateT.run (ExceptT.run x) s with ⟨r, s'⟩
  rcases h' : StateT.run (ExceptT.run fin) s' with ⟨r', s''⟩
  simp only [tryFinally', ExceptT.run, ExceptT.mk, StateT.run, bind, StateT.bind, Functor.map, ExceptT.map] at h h' ⊢
  rw [h]
  cases r with
  | error e =>
    simp only [h']
    cases r' with
    | error e' => rfl
    | ok b => rfl
  | ok a =>
    simp only [h']
    cases r' with
    | error e' => rfl
    | ok b => rfl

/-! ## What every outcome keeps -/

/-- `I` holds of what is left, after a value and after an error. -/
def Keeps (I : σ → Prop) (x : Eff ε σ α) : Prop := ∀ s, I s → I (exec x s).2

variable {I : σ → Prop}

theorem keeps_throwIf [Decidable c] (e : ε) : Keeps I (throwIf c e : Eff ε σ Unit) := by
  intro s hs
  unfold throwIf
  split
  · exact hs
  · exact hs

theorem keeps_bind (hx : Keeps I x) (hf : ∀ a, Keeps I (f a)) : Keeps I (x >>= f) := by
  intro s hs
  have h := hx s hs
  rw [exec_bind]
  rcases he : exec x s with ⟨r, s'⟩
  rw [he] at h
  cases r with
  | error e => exact h
  | ok a => exact hf a s' h

theorem keeps_forM {f : α → Eff ε σ Unit} {as : List α} (hf : ∀ a ∈ as, Keeps I (f a)) : Keeps I (as.forM f) := by
  induction as with
  | nil => exact fun _ hs => hs
  | cons a as ih =>
    obtain ⟨ha, has⟩ := List.forall_mem_cons.mp hf
    exact keeps_bind ha fun _ => ih has

theorem keeps_tryCatch {handler : ε → Eff ε σ α} (hx : Keeps I x) (hh : ∀ e, Keeps I (handler e)) :
    Keeps I (tryCatch x handler) := by
  intro s hs
  have h := hx s hs
  rw [exec_tryCatch]
  rcases he : exec x s with ⟨r, s'⟩
  rw [he] at h
  cases r with
  | error e => exact hh e s' h
  | ok a => exact h

/-! ## What every outcome does -/

/-- `K` holds between the state before and what is left; a value and what is left with it are as `Q` says. -/
structure Moves (K : σ → σ → Prop) (x : Eff ε σ α) (s : σ) (Q : α → σ → Prop) : Prop where
  moved : K s (exec x s).2
  value : ∀ a, (exec x s).1 = .ok a → Q a (exec x s).2

variable {K : σ → σ → Prop} {Q : α → σ → Prop} {R : β → σ → Prop} {s s' : σ}

theorem moves_ok (h : exec x s = (.ok a, s')) (hK : K s s') (hQ : Q a s') : Moves K x s Q := by
  refine ⟨by rw [h]; exact hK, fun b hb => ?_⟩
  rw [h] at hb ⊢
  cases hb
  exact hQ

theorem moves_error (h : exec x s = (.error e, s')) (hK : K s s') : Moves K x s Q := by
  refine ⟨by rw [h]; exact hK, fun b hb => ?_⟩
  rw [h] at hb
  cases hb

theorem Moves.of_ok (h : Moves K x s Q) (he : exec x s = (.ok a, s')) : K s s' ∧ Q a s' := by
  obtain ⟨hmoved, hvalue⟩ := h
  rw [he] at hmoved hvalue
  exact ⟨hmoved, hvalue a rfl⟩

theorem moves_bind [IsTrans σ K] (hx : Moves K x s Q)
    (hf : ∀ a s', K s s' → Q a s' → Moves K (f a) s' R) : Moves K (x >>= f) s R := by
  obtain ⟨hmoved, hvalue⟩ := hx
  rcases he : exec x s with ⟨r, s'⟩
  rw [he] at hmoved hvalue
  cases r with
  | error e => exact moves_error (exec_bind_error he) hmoved
  | ok a =>
    have hrest := hf a s' hmoved (hvalue a rfl)
    have hbind : exec (x >>= f) s = exec (f a) s' := exec_bind_ok he
    exact ⟨by rw [hbind]; exact IsTrans.trans _ _ _ hmoved hrest.moved, by rw [hbind]; exact hrest.value⟩

theorem moves_throwIf_bind [Decidable c] {f : Unit → Eff ε σ β} (hK : K s s) (hf : ¬c → Moves K (f ()) s R) :
    Moves K (throwIf c e >>= f) s R := by
  have h := exec_throwIf_bind (c := c) e f s
  by_cases hc : c
  · rw [if_pos hc] at h
    exact moves_error h hK
  · rw [if_neg hc] at h
    obtain ⟨hmoved, hvalue⟩ := hf hc
    exact ⟨by rw [h]; exact hmoved, by rw [h]; exact hvalue⟩

theorem moves_get_bind {f : σ → Eff ε σ β} (hf : Moves K (f s) s R) : Moves K (getThe σ >>= f) s R := by
  have h : exec (getThe σ >>= f) s = exec (f s) s := exec_bind_ok (exec_get s)
  exact ⟨by rw [h]; exact hf.moved, by rw [h]; exact hf.value⟩

end Aworker.Lib
