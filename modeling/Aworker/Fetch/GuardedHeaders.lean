/-
  Aworker.Fetch.GuardedHeaders — what the guards `request` and `response` keep out (lib/fetch/headers.js).

  `append`, `set` and `delete` validate and write the name in lower case. The guard is asked about
  the name as it was given, and its tables are in lower case: only a spelling that is itself in
  them is refused.

  - `protects_iff`: a spelling can never change or add a forbidden entry exactly if it is
    illegal, or names no forbidden header, or is one of the spellings that the guard refuses.
  - `cookie_added`: with the guard `request` the name `Cookie` is appended.
-/

import Mathlib
import Aworker.Fetch.SharedHeaders

namespace Aworker.Fetch.Shared

open Aworker.Lib Aworker.Lib.CopyOnWrite List Option

/-! ## Changes of one object -/

inductive Change where
  | append (name value : Text)
  | set (name value : Text)
  | delete (name : Text)

def Change.name : Change → Text
  | .append name _ | .set name _ | .delete name => name

def Change.op (i : Nat) : Change → Op
  | .append name value => .append i name value
  | .set name value => .set i name value
  | .delete name => .delete i name

/-- What the change makes of a list. -/
def Change.apply : Change → HeaderList → Guard → Except JsError HeaderList
  | .append name value => Deep.append name value
  | .set name value => Deep.set name value
  | .delete name => Deep.delete name

def State.list (s : State) (i : Nat) : HeaderList := s.heap.view.getD i []

variable {s s' : State} {i : Nat} {c : Change} {data data' : HeaderList} {guard : Guard}

variable {ops : List Op}

theorem separated_of_run (hr : run State.step State.start ops = some s) : Separated s.heap :=
  run_inv (I := fun s => Separated s.heap) (fun _ op s' hs _ he => (step_lists hs op).2 s' he) empty_separated (along_true _ _) hr

theorem change_list (hs : Separated s.heap) (hg : s.guards[i]? = some guard) (h : s.step (c.op i) = some s') :
    s'.list i = match c.apply (s.list i) guard with
      | .ok data => data
      | .error _ => s.list i := by
  have hstep := (step_lists hs (c.op i)).1
  have hop : s.lists.step (c.op i) = s.lists.write i c.apply := by cases c <;> rfl
  rw [h, hop, map_some, Deep.write] at hstep
  cases hi : s.lists.lists[i]? with
  | none =>
    rw [hi] at hstep
    cases hstep
  | some data =>
    have hlist : s.list i = data := by
      rw [State.list, getD_eq_getElem?_getD]
      exact congrArg (·.getD []) hi
    have hlt : i < s.lists.lists.length := (List.getElem?_eq_some_iff.mp hi).1
    rw [hi, show s.lists.guards[i]? = some guard from hg] at hstep
    rw [hlist]
    have hview : s'.heap.view = s'.lists.lists := rfl
    rw [State.list, hview, Option.some.inj hstep]
    cases c.apply data guard with
    | ok data' => simp [getD_eq_getElem?_getD, hlt]
    | error e =>
      rw [getD_eq_getElem?_getD]
      exact congrArg (·.getD []) hi

/-! ## What a change does to a list -/

variable {r : Except JsError HeaderList}

theorem validateName_ok {name : Text} (h : (validateName name >>= fun _ => r) = .ok data) :
    legalName name = true ∧ r = .ok data := by
  unfold validateName at h
  split at h
  · next hn => exact ⟨hn, h⟩
  · cases h

variable {value : Text}

theorem validateValue_ok (h : (validateValue value >>= fun _ => r) = .ok data) :
    legalValue value = true ∧ r = .ok data := by
  unfold validateValue at h
  split at h
  · next hv => exact ⟨hv, h⟩
  · cases h

/-- The list before the privileged names are taken out. -/
def Change.write : Change → HeaderList → HeaderList
  | .append name value, data => dataAppend data (toLowerCase name) (trimmed value)
  | .set name value, data => dataSet data (toLowerCase name) (trimmed value)
  | .delete name, data => dataDelete data (toLowerCase name)

def Change.refused : Change → Guard → HeaderList → Bool
  | .append name value => refusesAppend name value
  | .set name value => refusesSet name value
  | .delete name => refusesDelete name

def Change.legal : Change → Bool
  | .append name value | .set name value => legalName (toLowerCase name) && legalValue (trimmed value)
  | .delete name => legalName (toLowerCase name)

theorem Change.legalName_of_legal (h : c.legal = true) : legalName (toLowerCase c.name) = true := by
  cases c with
  | append name value | set name value => exact (Bool.and_eq_true_iff.mp h).1
  | delete name => exact h

theorem apply_ok (h : c.apply data guard = .ok data') : c.legal = true ∧ Deep.mutate c.refused c.write data guard = .ok data' := by
  cases c with
  | append name value | set name value =>
    obtain ⟨hn, h⟩ := validateName_ok h
    obtain ⟨hv, h⟩ := validateValue_ok h
    exact ⟨Bool.and_eq_true_iff.mpr ⟨hn, hv⟩, h⟩
  | delete name => exact validateName_ok h

theorem apply_legal (h : c.legal = true) : c.apply data guard = Deep.mutate c.refused c.write data guard := by
  cases c with
  | append name value | set name value =>
    obtain ⟨hn, hv⟩ := Bool.and_eq_true_iff.mp h
    simp only [Change.apply, Deep.append, Deep.set, validateName, validateValue, hn, hv, if_true]
    rfl
  | delete name =>
    simp only [Change.apply, Deep.delete, validateName, show legalName (toLowerCase name) = true from h, if_true]
    rfl

/-- Entries that `p` selects are not touched by a write that makes others of others. -/
theorem filter_upsert {p : Text × Text → Bool} {take : Text × Text → Option (Text × Text)} {v : Text × Text} (hv : p v = false)
    (htake : ∀ x y, take x = some y → p x = false ∧ p y = false) (data : HeaderList) : (upsert take v data).filter p = data.filter p := by
  induction data with
  | nil => simp [upsert, hv]
  | cons x data ih =>
    rw [upsert]
    cases hx : take x with
    | none => simp only [filter_cons, ih]
    | some y =>
      obtain ⟨hpx, hpy⟩ := htake x y hx
      rw [filter_cons_of_neg (by simp [hpy]), filter_cons_of_neg (by simp [hpx])]

variable {key : Text} {x : Text × Text}

theorem setTo_some {y : Text × Text} (h : setTo key value x = some y) :
    x.1 = key ∧ y = (key, value) ∧ (key = setCookie → cookieKey value = cookieKey x.2) := by
  unfold setTo at h
  split at h
  · next hx =>
    split at h
    · split at h
      · next hkey =>
        cases h
        exact ⟨hx, by rw [hx], fun _ => hkey⟩
      · cases h
    · next hcookie =>
      cases h
      exact ⟨hx, by rw [hx], fun he => absurd he hcookie⟩
  · cases h

theorem setTo_none (h : setTo key value x = none) : Apart x (key, value) := by
  intro hx
  have hx : x.1 = key := hx
  rw [setTo, if_pos hx] at h
  split at h
  · next hcookie =>
    split at h
    · cases h
    · next hkey => exact ⟨hx.trans hcookie, Ne.symm hkey⟩
  · cases h

theorem filter_write {p : Text → Bool} (hp : p (toLowerCase c.name) = false) (data : HeaderList) :
    (c.write data).filter (fun e => p e.1) = data.filter fun e => p e.1 := by
  cases c with
  | append name value =>
    rw [Change.write, ← upsert_appendTo]
    refine filter_upsert hp (fun x y h => ?_) data
    unfold appendTo at h
    split at h
    · next hc =>
      have hname : p x.1 = false := by
        rw [hc.2, ← hc.1]
        exact hp
      split at h
      · cases h
        exact ⟨hname, hname⟩
      · cases h
    · split at h
      · next hx =>
        cases h
        have hname : p x.1 = false := hx ▸ hp
        exact ⟨hname, hname⟩
      · cases h
  | set name value =>
    refine filter_upsert hp (fun x y h => ?_) data
    obtain ⟨hx, rfl, -⟩ := setTo_some h
    exact ⟨hx ▸ hp, hp⟩
  | delete name =>
    rw [Change.write, dataDelete, List.filter_filter]
    refine filter_congr fun x _ => ?_
    by_cases hx : x.1 = toLowerCase name
    · rw [hx, show p (toLowerCase name) = false from hp]
      rfl
    · simp [hx]

/-! ## What is a header list stays one -/

theorem mem_dataSet {e : Text × Text} (he : e ∈ dataSet data key value) : e ∈ data ∨ e = (key, value) := by
  induction data with
  | nil => exact Or.inr (mem_singleton.mp he)
  | cons x data ih =>
    rw [dataSet, upsert] at he
    cases ht : setTo key value x with
    | none =>
      rw [ht] at he
      rcases mem_cons.mp he with rfl | he
      · exact Or.inl mem_cons_self
      · exact (ih he).imp_left (mem_cons_of_mem x)
    | some y =>
      rw [ht] at he
      rcases mem_cons.mp he with rfl | he
      · exact Or.inr (setTo_some ht).2.1
      · exact Or.inl (mem_cons_of_mem x he)

theorem distinct_dataSet (h : data.Pairwise Apart) : (dataSet data key value).Pairwise Apart := by
  induction data with
  | nil => exact pairwise_singleton _ _
  | cons x data ih =>
    obtain ⟨hx, hdata⟩ := pairwise_cons.mp h
    rw [dataSet, upsert]
    cases ht : setTo key value x with
    | none =>
      refine pairwise_cons.mpr ⟨fun b hb => ?_, ih hdata⟩
      rcases mem_dataSet hb with hb | rfl
      · exact hx b hb
      · exact setTo_none ht
    | some y =>
      obtain ⟨hname, rfl, hcookie⟩ := setTo_some ht
      refine pairwise_cons.mpr ⟨fun b hb hkey => ?_, hdata⟩
      obtain ⟨hset, hne⟩ := hx b hb (hname.trans hkey)
      refine ⟨hname ▸ hset, ?_⟩
      rw [hcookie (hname ▸ hset)]
      exact hne

theorem write_ok (h : HeadersOk data) (hc : c.legal = true) : HeadersOk (c.write data) := by
  cases c with
  | append name value =>
    obtain ⟨hn, hv⟩ := Bool.and_eq_true_iff.mp hc
    exact h.append hn (toLowerCase_idem name) hv
  | set name value =>
    obtain ⟨hn, hv⟩ := Bool.and_eq_true_iff.mp hc
    refine ⟨fun e he => ?_, fun e he => ?_, distinct_dataSet h.distinct⟩
    · rcases mem_dataSet he with he | rfl
      · exact h.name e he
      · exact ⟨hn, toLowerCase_idem name⟩
    · rcases mem_dataSet he with he | rfl
      · exact h.value e he
      · exact hv
  | delete name => exact h.sublist filter_sublist

theorem apply_headersOk (h : HeadersOk data) (ha : c.apply data guard = .ok data') : HeadersOk data' := by
  obtain ⟨hc, ha⟩ := apply_ok ha
  unfold Deep.mutate at ha
  split at ha
  · cases ha
  · split at ha
    · cases ha
      exact h
    · cases ha
      split
      · exact (write_ok h hc).sublist filter_sublist
      · exact write_ok h hc

theorem appendAll_headersOk {init : HeaderList} (h : HeadersOk data) (ha : Deep.appendAll init data = .ok data') : HeadersOk data' := by
  induction init generalizing data with
  | nil =>
    cases ha
    exact h
  | cons e init ih =>
    obtain ⟨data1, hone, hrest⟩ := bind_ok.mp ha
    exact ih (apply_headersOk (c := .append e.1 e.2) h hone) hrest

variable {d d' : Deep} {op : Op}

/-- What an operation can do to the lists: add one, change one, or leave them. -/
theorem Deep.step_cases (hs : d.step op = some d') :
    (∃ data, d'.lists = d.lists ++ [data] ∧ d'.guards = d.guards ++ [.none] ∧ ((∃ init, Deep.appendAll init [] = .ok data) ∨ data ∈ d.lists)) ∨
      (∃ i c data guard data', op = Change.op i c ∧ d.lists[i]? = some data ∧ c.apply data guard = .ok data' ∧ d'.lists = d.lists.set i data' ∧
        d'.guards = d.guards) ∨
      (d'.lists = d.lists ∧ d'.guards.length = d.guards.length) := by
  have hwrite : ∀ (i : Nat) (c : Change), op = c.op i → d.write i c.apply = some d' →
      (∃ i c data guard data', op = Change.op i c ∧ d.lists[i]? = some data ∧ c.apply data guard = .ok data' ∧ d'.lists = d.lists.set i data' ∧
        d'.guards = d.guards) ∨ (d'.lists = d.lists ∧ d'.guards.length = d.guards.length) := by
    intro i c hop hs
    unfold Deep.write at hs
    split at hs
    · next data guard hi hg =>
      cases hs
      cases ha : c.apply data guard with
      | error e => exact Or.inr ⟨rfl, rfl⟩
      | ok data' => exact Or.inl ⟨i, c, data, guard, data', hop, hi, ha, rfl, rfl⟩
    · cases hs
  have hquery : ∀ (i : Nat) f, d.query i f = some d' → d'.lists = d.lists ∧ d'.guards.length = d.guards.length := by
    intro i f hs
    obtain ⟨data, -, rfl⟩ := map_eq_some_iff.mp hs
    exact ⟨rfl, rfl⟩
  cases op with
  | construct init =>
    simp only [Deep.step] at hs
    cases hs
    cases ha : Deep.appendAll init [] with
    | error e => exact Or.inr (Or.inr ⟨rfl, rfl⟩)
    | ok data => exact Or.inl ⟨data, rfl, rfl, Or.inl ⟨init, ha⟩⟩
  | copy other =>
    obtain ⟨data, hdata, rfl⟩ := map_eq_some_iff.mp hs
    exact Or.inl ⟨data, rfl, rfl, Or.inr (mem_of_getElem? hdata)⟩
  | append i name value => exact Or.inr (hwrite i (.append name value) rfl hs)
  | set i name value => exact Or.inr (hwrite i (.set name value) rfl hs)
  | delete i name => exact Or.inr (hwrite i (.delete name) rfl hs)
  | get i name => exact Or.inr (Or.inr (hquery i _ hs))
  | has i name => exact Or.inr (Or.inr (hquery i _ hs))
  | entries i => exact Or.inr (Or.inr (hquery i _ hs))
  | keys i => exact Or.inr (Or.inr (hquery i _ hs))
  | values i => exact Or.inr (Or.inr (hquery i _ hs))
  | guard i g =>
    cases hs
    exact Or.inr (Or.inr ⟨rfl, length_set ..⟩)

theorem Deep.step_ok (h : ∀ data ∈ d.lists, HeadersOk data) (hs : d.step op = some d') : ∀ data ∈ d'.lists, HeadersOk data := by
  rcases Deep.step_cases hs with ⟨data, hlists, -, hdata⟩ | ⟨i, c, data, guard, data', -, hi, ha, hlists, -⟩ | ⟨hlists, -⟩
  · have hok : HeadersOk data := by
      rcases hdata with ⟨init, ha⟩ | hdata
      · exact appendAll_headersOk Headers.empty.ok ha
      · exact h data hdata
    rw [hlists]
    exact forall_mem_append.mpr ⟨h, forall_mem_singleton.mpr hok⟩
  · rw [hlists]
    intro x hx
    rcases mem_or_eq_of_mem_set hx with hx | rfl
    · exact h x hx
    · exact apply_headersOk (h data (mem_of_getElem? hi)) ha
  · rw [hlists]
    exact h

/-! ## Forbidden entries -/

def forbidden (guard : Guard) (name : Text) : Bool :=
  match guard with
  | .request => isForbiddenRequestHeaderName name
  | .response => isForbiddenResponseHeaderName name
  | _ => false

/-- The entries that the guard protects. -/
def kept (guard : Guard) (data : HeaderList) : HeaderList := data.filter fun e => forbidden guard (toLowerCase e.1)

/-- No change with this spelling of a name, of any object with the guard in any state, touches or adds a forbidden entry. -/
def Protects (guard : Guard) (name : Text) : Prop :=
  ∀ ops s s' i c, run State.step State.start ops = some s → s.guards[i]? = some guard → Change.name c = name →
    s.step (c.op i) = some s' → kept guard (s'.list i) = kept guard (s.list i)

theorem refused_eq (h : guard = .request ∨ guard = .response) (c : Change) (data : HeaderList) : c.refused guard data = forbidden guard c.name := by
  rcases h with rfl | rfl <;> cases c <;> rfl

theorem apply_kept (hname : legalName (toLowerCase c.name) = true → forbidden guard (toLowerCase c.name) = true → forbidden guard c.name = true)
    (h : c.apply data guard = .ok data') : kept guard data' = kept guard data := by
  by_cases hg : guard = .request ∨ guard = .response
  · obtain ⟨hlegal, h⟩ := apply_ok h
    have himm : guard ≠ .immutable := by rcases hg with rfl | rfl <;> exact nofun
    have hcors : guard ≠ .requestNoCors := by rcases hg with rfl | rfl <;> exact nofun
    rw [Deep.mutate, if_neg himm, if_neg hcors, refused_eq hg] at h
    split at h
    · cases h
      rfl
    · next href =>
      cases h
      have hlower : forbidden guard (toLowerCase (toLowerCase c.name)) = false := by
        rw [toLowerCase_idem]
        by_contra hforbidden
        exact href (hname (Change.legalName_of_legal hlegal) (Bool.eq_true_of_not_eq_false hforbidden))
      exact filter_write (p := fun name => forbidden guard (toLowerCase name)) hlower data
  · -- the other guards have no forbidden entries
    have hno : ∀ name, forbidden guard name = false := by
      intro name
      cases guard with
      | request => exact absurd (Or.inl rfl) hg
      | response => exact absurd (Or.inr rfl) hg
      | none | immutable | requestNoCors => rfl
    simp [kept, hno]

theorem protects_iff (guard : Guard) (name : Text) :
    Protects guard name ↔ (legalName (toLowerCase name) = true → forbidden guard (toLowerCase name) = true → forbidden guard name = true) := by
  constructor
  · intro h hlegal hlower
    by_contra hraw
    have hg : guard = .request ∨ guard = .response := by
      cases guard with
      | request => exact Or.inl rfl
      | response => exact Or.inr rfl
      | none | immutable | requestNoCors => cases hlower
    -- an object without entries takes the name
    obtain ⟨s, hr, hguard, howner, hnil⟩ : ∃ s, run State.step State.start [.construct [], .guard 0 guard] = some s ∧
        s.guards[0]? = some guard ∧ s.heap.owners[0]? = some 0 ∧ s.list 0 = [] := ⟨_, rfl, rfl, rfl, rfl⟩
    obtain ⟨s', hs'⟩ : ∃ s', s.step ((Change.append name ['x']).op 0) = some s' := by
      simp only [Change.op, State.step, State.write, howner, hguard]
      exact ⟨_, rfl⟩
    have hlist := change_list (separated_of_run hr) hguard hs'
    have hadd : (Change.append name ['x']).apply [] guard = .ok [(toLowerCase name, ['x'])] := by
      have hchange : (Change.append name ['x']).legal = true := Bool.and_eq_true_iff.mpr ⟨hlegal, by decide⟩
      rw [apply_legal hchange, Deep.mutate, refused_eq hg]
      rcases hg with rfl | rfl <;> simp only [Change.name, hraw] <;> rfl
    rw [hnil, hadd] at hlist
    have hkept := h _ s s' 0 _ hr hguard rfl hs'
    rw [hlist, hnil] at hkept
    simp [kept, toLowerCase_idem, hlower] at hkept
  · intro h ops s s' i c hr hg hname hstep
    rw [change_list (separated_of_run hr) hg hstep]
    cases ha : c.apply (s.list i) guard with
    | error e => rfl
    | ok data' => exact apply_kept (hname ▸ h) ha

theorem cookie_added :
    (run State.step State.start [.construct [], .guard 0 .request, .append 0 "Cookie".toList "a=1".toList, .entries 0]).map State.results =
      some [.object 0, .undefined, .undefined, .entries [("cookie".toList, "a=1".toList)]] ∧
    (run State.step State.start [.construct [("set-cookie".toList, "a=1".toList)], .guard 0 .response, .delete 0 "Set-Cookie".toList,
      .entries 0]).map State.results = some [.object 0, .undefined, .undefined, .entries []] := by
  decide

end Aworker.Fetch.Shared
