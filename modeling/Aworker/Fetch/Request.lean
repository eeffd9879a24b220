/-
  Aworker.Fetch.Request — `new Request(input, init)` for an `input` that is a `Request`
  (lib/fetch/body.js).

  The constructor chooses headers (`init.headers`, or the very object of the input), gives them a
  guard, adds a `content-type` that it takes from the body, and then takes a copy of the input's
  headers all the same. The signal is the input's whatever `init.signal` is.

  - `request_right_iff`: the new request has the headers, the signal and the method that it should
    have and the input's list is as it was, exactly if: no `content-type` is set on the input's
    own object; and, when a request is made, the headers of `init` come to the list of the
    input, no type of a `Blob` is lost, `init.signal` is aborted together with the input's signal,
    and `init.method` is not empty.
  Also `init_lost`.
-/

import Mathlib
import Aworker.Fetch.Response

namespace Aworker.Fetch.Shared

open Aworker.Lib Aworker.Lib.CopyOnWrite Aworker.Dom.Signal List

/-! ## Later changes -/

def Op.target : Op → Option Nat
  | .append i _ _ | .delete i _ | .set i _ _ => some i
  | _ => none

/-- Changes of one of the two do not show in the other. -/
structure Independent (s : State) (i j : Nat) : Prop where
  apart : i ≠ j
  left : ∀ ops s', (∀ op ∈ ops, Op.target op ≠ some i) → run State.step s ops = some s' → s'.list i = s.list i
  right : ∀ ops s', (∀ op ∈ ops, Op.target op ≠ some j) → run State.step s ops = some s' → s'.list j = s.list j

theorem step_list {s s' : State} {op : Op} {i : Nat} (hs : Separated s.heap) (hi : i < s.heap.owners.length) (ht : op.target ≠ some i)
    (h : s.step op = some s') : s'.list i = s.list i ∧ Separated s'.heap ∧ i < s'.heap.owners.length := by
  have hlists := (step_lists hs op).1
  rw [h, Option.map_some] at hlists
  have hdeep : s.lists.step op = some s'.lists := hlists.symm
  rw [← view_length] at hi
  have hview : s'.heap.view[i]? = s.heap.view[i]? := by
    rcases Deep.step_cases hdeep with ⟨data, hl, -, -⟩ | ⟨j, c, data, guard, data', hop, -, -, hl, -⟩ | ⟨hl, -⟩
    · rw [show s'.heap.view = s.heap.view ++ [data] from hl, getElem?_append_left hi]
    · have hj : j ≠ i := by
        rintro rfl
        rw [hop] at ht
        cases c <;> exact ht rfl
      rw [show s'.heap.view = s.heap.view.set j data' from hl, getElem?_set_ne hj]
    · rw [show s'.heap.view = s.heap.view from hl]
  refine ⟨?_, (step_lists hs op).2 s' h, ?_⟩
  · rw [State.list, State.list, getD_eq_getElem?_getD, getD_eq_getElem?_getD, hview]
  · rw [← view_length]
    by_contra hge
    rw [getElem?_eq_none (Nat.le_of_not_lt hge), getElem?_eq_getElem hi] at hview
    cases hview

theorem run_list {s s' : State} {ops : List Op} {i : Nat} (hs : Separated s.heap) (hi : i < s.heap.owners.length)
    (ht : ∀ op ∈ ops, Op.target op ≠ some i) (hr : run State.step s ops = some s') : s'.list i = s.list i := by
  have hinv := run_inv (I := fun t : State => t.list i = s.list i ∧ Separated t.heap ∧ i < t.heap.owners.length)
    (Q := fun _ op => Op.target op ≠ some i) (fun t op t' ht hq hstep => ?_) ⟨rfl, hs, hi⟩ ((along_iff_forall hr).mpr ht) hr
  · exact hinv.1
  · obtain ⟨hl, hsep, hlt⟩ := step_list ht.2.1 ht.2.2 hq hstep
    exact ⟨hl.trans ht.1, hsep, hlt⟩

theorem independent_of_ne {s : State} {i j : Nat} (hs : Separated s.heap) (hi : i < s.heap.owners.length) (hj : j < s.heap.owners.length)
    (hne : i ≠ j) : Independent s i j :=
  ⟨hne, fun _ _ ht hr => run_list hs hi ht hr, fun _ _ ht hr => run_list hs hj ht hr⟩

/-! ## Reading the input -/

variable {P : Platform} {w w' : World} {k i : Nat} {input r : Request} {init : RequestInit}

/-- The request `k` has been asked for its body, at most. -/
structure Peeked (w w' : World) (k : Nat) (r : Request) : Prop where
  objects : w'.objects = w.objects
  signals : w'.signals = w.signals
  request : ∃ b, w'.requests[k]? = some (r.withBody b)

def Peeks (k : Nat) (w w' : World) : Prop := ∀ r, w.requests[k]? = some r → Peeked w w' k r

instance (k : Nat) : IsTrans World (Peeks k) where
  trans _ _ _ h h' r hr := by
    obtain ⟨b, hb⟩ := (h r hr).request
    obtain ⟨hobjects, hsignals, b', hb'⟩ := h' (r.withBody b) hb
    exact ⟨hobjects.trans (h r hr).objects, hsignals.trans (h r hr).signals, b', hb'⟩

theorem Peeks.refl (k : Nat) (w : World) : Peeks k w w := fun r hr => ⟨rfl, rfl, r.toBody, hr⟩

theorem getBody_peeks (b : Body) (w : World) : Moves (Peeks k) (getBody b) w fun _ _ => True := by
  have hopen : ∀ bytes, Moves (Peeks k) (newStream (.ok bytes) >>= fun n => pure ({ b with stream := some n }, some n) : Script (Body × Option Nat)) w
      fun _ _ => True :=
    fun bytes => moves_ok rfl (fun r hr => ⟨rfl, rfl, r.toBody, hr⟩) trivial
  unfold getBody
  split
  · exact moves_ok rfl (Peeks.refl k w) trivial
  · exact moves_ok rfl (Peeks.refl k w) trivial
  · exact moves_ok rfl (Peeks.refl k w) trivial
  · exact moves_ok rfl (Peeks.refl k w) trivial
  · exact hopen _
  · exact hopen _

theorem getRequest_exec (hk : w.requests[k]? = some r) : exec (getRequest k) w = (.ok r, w) := by
  rw [getRequest, exec_bind_ok (exec_get w), hk]
  rfl

theorem setRequest_peeks (b : Body) (hk : ∃ b', w.requests[k]? = some (r.withBody b')) : Moves (Peeks k) (setRequest k (r.withBody b)) w fun _ _ => True := by
  refine moves_ok rfl (fun r' hr' => ⟨rfl, rfl, b, ?_⟩) trivial
  obtain ⟨b', hb'⟩ := hk
  have hlt : k < w.requests.length := (List.getElem?_eq_some_iff.mp hr').1
  rw [hb'] at hr'
  cases hr'
  exact getElem?_set_self hlt

theorem getRequest_peeks (k : Nat) (w : World) : Moves (Peeks k) (getRequest k) w fun r w' => w'.requests[k]? = some r := by
  refine moves_get_bind ?_
  cases hk : w.requests[k]? with
  | none => exact moves_error rfl (Peeks.refl k w)
  | some r => exact moves_ok rfl (Peeks.refl k w) hk

theorem bodyUsed_peeks (b : Body) (w : World) : Moves (Peeks k) (bodyUsed b) w fun _ _ => True :=
  moves_bind (getBody_peeks b w) fun _ w1 _ _ => moves_get_bind (moves_ok rfl (Peeks.refl k w1) trivial)

theorem requestUsed_peeks (k : Nat) (w : World) : Moves (Peeks k) (requestUsed k) w fun _ _ => True := by
  refine moves_bind (getRequest_peeks k w) fun r w1 _ hr => ?_
  refine moves_bind (bodyUsed_peeks r.toBody w1) fun x w2 h2 _ => ?_
  exact moves_bind (setRequest_peeks x.1 (h2 r hr).request) fun _ w3 _ _ => moves_ok rfl (Peeks.refl k w3) trivial

theorem requestBody_peeks (k : Nat) (w : World) : Moves (Peeks k) (requestBody k) w fun _ _ => True := by
  refine moves_bind (getRequest_peeks k w) fun r w1 _ hr => ?_
  refine moves_bind (getBody_peeks r.toBody w1) fun x w2 h2 _ => ?_
  exact moves_bind (setRequest_peeks x.1 (h2 r hr).request) fun _ w3 _ _ => moves_ok rfl (Peeks.refl k w3) trivial

theorem checkUnused_peeks (k : Nat) (w : World) : Moves (Peeks k) (checkUnused k) w fun _ _ => True := by
  refine moves_bind (requestUsed_peeks k w) fun used w1 _ _ => ?_
  unfold throwIf
  split
  · exact moves_error rfl (Peeks.refl k w1)
  · exact moves_ok rfl (Peeks.refl k w1) trivial

theorem initBody_peeks (k : Nat) (body : BodyInit) (w : World) : Moves (Peeks k) (initBody (.request k) body) w fun _ _ => True := by
  unfold initBody
  split
  · exact moves_ok rfl (Peeks.refl k w) trivial
  · refine moves_bind (getRequest_peeks k w) fun r w1 _ _ => ?_
    split
    · exact moves_bind (checkUnused_peeks k w1) fun _ w2 _ _ => moves_ok rfl (Peeks.refl k w2) trivial
    · refine moves_bind (requestBody_peeks k w1) fun s w2 _ _ => ?_
      cases s with
      | none => exact moves_ok rfl (Peeks.refl k w2) trivial
      | some j => exact moves_bind (checkUnused_peeks k w2) fun _ w3 _ _ => moves_ok rfl (Peeks.refl k w3) trivial

/-! ## From `super` on -/

structure KeepsLists (w w' : World) : Prop where
  list : ∀ x < w.heap.owners.length, w'.list x = w.list x
  count : w.heap.owners.length ≤ w'.heap.owners.length

instance : IsTrans World KeepsLists where
  trans _ _ _ h h' := ⟨fun x hx => (h'.list x (hx.trans_le h.count)).trans (h.list x hx), h.count.trans h'.count⟩

theorem KeepsLists.of_objects (h : w'.objects = w.objects) : KeepsLists w w' := by
  refine ⟨fun x _ => ?_, ?_⟩
  · rw [World.list, World.list, h]
  · rw [World.heap, World.heap, h]

theorem KeepsLists.added {h : Heap} {l : HeaderList} (hview : h.view = w.heap.view ++ [l]) : KeepsLists w (w.added h) := by
  refine ⟨fun x hx => ?_, ?_⟩
  · rw [← view_length] at hx
    show h.view.getD x [] = w.heap.view.getD x []
    rw [hview, getD_append _ _ _ _ hx]
  · show w.heap.owners.length ≤ h.owners.length
    rw [← view_length, ← view_length, hview, length_append]
    exact Nat.le_add_right _ _

theorem added_list {h : Heap} {l : HeaderList} (hview : h.view = w.heap.view ++ [l]) : (w.added h).list w.heap.owners.length = l := by
  show h.view.getD w.heap.owners.length [] = l
  rw [hview, ← view_length]
  simp

/-- What is taken from an input that is a request: a copy of its headers in particular. -/
theorem takeInput_ok {t : Taken} {signal : Option Nat} (hk : w.requests[k]? = some input) (h : exec (takeInput P (.request k) i signal) w = (.ok t, w')) :
    t.method = input.method ∧ t.signal = some input.signal ∧ t.headers = w.heap.owners.length ∧ w'.signals = w.signals ∧
      w'.objects = (w.added (w.heap.share (headersData w.heap input.headers))).objects := by
  obtain ⟨_, w1, hused, hrest⟩ := exec_bind_eq_ok.mp h
  have hpeek := ((checkUnused_peeks k w).of_ok hused).1 input hk
  obtain ⟨b, hb⟩ := hpeek.request
  rw [exec_bind_ok (getRequest_exec hb), exec_bind_ok (shareHeaders_exec w1 _)] at hrest
  cases hrest
  have hheap : w1.heap = w.heap := congrArg State.heap hpeek.objects
  refine ⟨rfl, rfl, ?_, hpeek.signals, ?_⟩
  · show w1.heap.owners.length = w.heap.owners.length
    rw [hheap]
  · show (w1.added (w1.heap.share (headersData w1.heap input.headers))).objects = _
    rw [hheap, World.added, World.added, hpeek.objects]

theorem finishRequest_keeps (hk : w.requests[k]? = some input) (body : BodyInit) :
    Moves KeepsLists (finishRequest P (.request k) init i body) w fun _ _ => True := by
  have hself : ∀ w, KeepsLists w w := fun w => KeepsLists.of_objects rfl
  cases hs : body.source "Request".toList with
  | error e =>
    have he : exec (ofExcept (body.source "Request".toList) : Script Source) w = (.error e, w) := by rw [exec_ofExcept, hs]
    exact moves_error (exec_bind_error he) (hself w)
  | ok source =>
    have he : exec (ofExcept (body.source "Request".toList) : Script Source) w = (.ok source, w) := by rw [exec_ofExcept, hs]
    refine moves_bind (Q := fun _ w' => w'.requests[k]? = some input) (moves_ok he (hself w) hk) fun _ w1 _ hk1 => ?_
    have hpeek := (checkUnused_peeks k w1).moved input hk1
    have hcheck : Moves KeepsLists (checkUnused k) w1 fun _ w2 => ∃ b, w2.requests[k]? = some (input.withBody b) :=
      ⟨KeepsLists.of_objects hpeek.objects, fun _ _ => hpeek.request⟩
    have htake : Moves KeepsLists (takeInput P (.request k) i init.signal) w1 fun _ _ => True := by
      refine moves_bind hcheck fun _ w2 _ ⟨b, hb⟩ => ?_
      refine moves_bind (Q := fun _ _ => True) (moves_ok (getRequest_exec hb) (hself w2) trivial) fun r w3 _ _ => ?_
      have hshare := moves_ok (Q := fun _ _ => True) (shareHeaders_exec w3 r.headers) (KeepsLists.added (share_view _ _)) trivial
      exact moves_bind hshare fun _ w4 _ _ => moves_ok rfl (hself w4) trivial
    refine moves_bind htake fun t w2 _ _ => moves_throwIf_bind (hself w2) fun _ => ?_
    exact moves_bind (Q := fun _ _ => True) (moves_ok rfl (KeepsLists.of_objects rfl) trivial) fun _ w3 _ _ => moves_ok rfl (hself w3) trivial

theorem finishRequest_ok {body : BodyInit} (hk : w.requests[k]? = some input) (h : exec (finishRequest P (.request k) init i body) w = (.ok r, w')) :
    r.method = chosenMethod input.method init.method ∧ r.headers = w.heap.owners.length ∧ r.signal = w.signals.length ∧
      w'.signals = createFollowingSignal (some input.signal) w.signals ∧
      w'.objects = (w.added (w.heap.share (headersData w.heap input.headers))).objects := by
  obtain ⟨source, w1, hs, h1⟩ := exec_bind_eq_ok.mp h
  rw [exec_ofExcept] at hs
  cases (congrArg Prod.snd hs : w = w1)
  obtain ⟨t, w2, htake, h2⟩ := exec_bind_eq_ok.mp h1
  obtain ⟨hmethod, hsignal, hheaders, hsignals, hobjects⟩ := takeInput_ok hk htake
  rw [exec_throwIf_bind] at h2
  split at h2
  · cases h2
  · cases h2
    refine ⟨congrArg (chosenMethod · init.method) hmethod, hheaders, congrArg List.length hsignals, ?_, hobjects⟩
    show createFollowingSignal t.signal w2.signals = _
    rw [hsignal, hsignals]

/-! ## The content type -/

theorem contentType_legal : legalName contentType = true ∧ toLowerCase contentType = contentType := by decide

theorem dataSet_new {data : HeaderList} {key : Text} (h : dataHas data key = false) (value : Text) : dataSet data key value = data ++ [(key, value)] := by
  induction data with
  | nil => rfl
  | cons e data ih =>
    rw [dataHas, any_cons, Bool.or_eq_false_iff] at h
    have hne : e.1 ≠ key := of_decide_eq_false h.1
    have hrest := ih h.2
    rw [dataSet] at hrest
    rw [dataSet, upsert, setTo, if_neg hne, hrest]
    rfl

theorem set_contentType {data : HeaderList} {guard : Guard} (hg : guard = .request ∨ guard = .none) (hno : dataHas data contentType = false) (type : Text) :
    (Change.set contentType type).apply data guard =
      if legalValue (trimmed type) = true then .ok (data ++ [(contentType, trimmed type)])
      else .error (.typeError (trimmed type ++ " is not a legal HTTP header value".toList)) := by
  by_cases hv : legalValue (trimmed type) = true
  · have hlegal : (Change.set contentType type).legal = true := by
      rw [Change.legal, contentType_legal.2, contentType_legal.1, hv]
      rfl
    have hrefused : (Change.set contentType type).refused guard data = false := by
      have hname : isForbiddenRequestHeaderName contentType = false := by decide
      rcases hg with rfl | rfl
      · exact hname
      · rfl
    have hguard : guard ≠ .immutable ∧ guard ≠ .requestNoCors := by rcases hg with rfl | rfl <;> decide
    rw [apply_legal hlegal, Deep.mutate, if_neg hguard.1, hrefused, if_neg Bool.false_ne_true, if_neg hguard.2, if_pos hv, Change.write,
      contentType_legal.2, dataSet_new hno]
  · rw [Change.apply, Deep.set, contentType_legal.2, validateName, contentType_legal.1, validateValue, if_neg hv, if_neg hv]
    rfl

/-- The body has a type, and there is no `content-type` yet. -/
def Typed (b : BodyInit) (l : HeaderList) (t : Text) : Prop := b.truthy = true ∧ (extract b).2 = some t ∧ dataHas l contentType = false

theorem extractBody_cases (ho : ObjectsOk w.objects) (hi : i < w.heap.owners.length) (hg : w.guard i = .request ∨ w.guard i = .none) (b : BodyInit) :
    (∃ t h b', Typed b (w.list i) t ∧ legalValue (trimmed t) = true ∧ exec (extractBody i b) w = (.ok b', w.setHeap h) ∧
      h.view = w.heap.view.set i (w.list i ++ [(contentType, trimmed t)])) ∨
    (∃ t e, Typed b (w.list i) t ∧ ¬legalValue (trimmed t) = true ∧ exec (extractBody i b) w = (.error e, w)) ∨
    ((∀ t, ¬Typed b (w.list i) t) ∧ ∃ b', exec (extractBody i b) w = (.ok b', w)) := by
  rw [extractBody, exec_bind_ok (exec_get w)]
  by_cases hc : b.truthy = true ∧ ¬dataHas (w.list i) contentType = true
  · have hno : dataHas (w.list i) contentType = false := Bool.eq_false_of_not_eq_true hc.2
    rw [if_pos hc]
    rcases he : extract b with ⟨b', type⟩
    cases type with
    | none =>
      refine Or.inr (Or.inr ⟨fun t ht => ?_, b', rfl⟩)
      have := ht.2.1
      rw [he] at this
      cases this
    | some t =>
      have ht : Typed b (w.list i) t := ⟨hc.1, by rw [he], hno⟩
      have hset := set_ok ho contentType t hi
      rw [set_contentType hg hno t] at hset
      rcases writeHeaders_exec hset with ⟨h, l, hw, hl, -, hview⟩ | ⟨e, hw, hl⟩
      · split at hl
        · next hv =>
          cases hl
          refine Or.inl ⟨t, h, b', ht, hv, ?_, hview⟩
          exact (exec_bind_ok hw).trans rfl
        · cases hl
      · split at hl
        · cases hl
        · next hv => exact Or.inr (Or.inl ⟨t, .js e, ht, hv, exec_bind_error hw⟩)
  · rw [if_neg hc]
    exact Or.inr (Or.inr ⟨fun t ht => hc ⟨ht.1, by rw [ht.2.2]; exact Bool.false_ne_true⟩, b, rfl⟩)

/-! ## The whole constructor -/

/-- The list that is asked for, before a `content-type` is added. -/
def Base (w : World) (input : Request) : HeadersInit → HeaderList → Prop
  | .tuples l, base => Deep.appendAll l [] = .ok base
  | .object j, base => base = w.list j
  | _, base => base = w.list input.headers

/-- A `content-type` is set on the object of the input itself. -/
def Touches (w : World) (k : Nat) (input : Request) (init : RequestInit) (l : HeaderList) : Prop :=
  init.headers.truthy = false ∧ ∃ b w1 t, exec (initBody (.request k) init.body) w = (.ok b, w1) ∧ Typed b (w.list input.headers) t ∧
    legalValue (trimmed t) = true ∧ l = w.list input.headers ++ [(contentType, trimmed t)]

/-- The request that is made, with a copy of the list `l`. -/
structure Copied (w w' : World) (input : Request) (init : RequestInit) (l : HeaderList) (r : Request) : Prop where
  method : r.method = chosenMethod input.method init.method
  fresh : r.headers ≠ input.headers
  list : w'.list r.headers = l
  signal : r.signal = w.signals.length
  signals : w'.signals = createFollowingSignal (some input.signal) w.signals

theorem finishRequest_copied {v : World} {b : Body} {body : BodyInit} (hv : v.requests[k]? = some (input.withBody b)) (hs : v.signals = w.signals)
    (hlt : input.headers < v.heap.owners.length) (h : exec (finishRequest P (.request k) init i body) v = (.ok r, w')) :
    Copied w w' input init (v.list input.headers) r := by
  obtain ⟨hmethod, hheaders, hsignal, hsignals, hobjects⟩ := finishRequest_ok hv h
  obtain ⟨a, ha⟩ := owner_of_lt hlt
  refine ⟨hmethod, ?_, ?_, hs ▸ hsignal, hs ▸ hsignals⟩
  · rw [hheaders]
    exact Nat.ne_of_gt hlt
  · rw [World.list, hobjects, hheaders, list_eq ha]
    rw [show (input.withBody b).headers = input.headers from rfl, headersData_eq ha]
    exact added_list (share_view v.heap a)

theorem setGuard_spec (ho : ObjectsOk w.objects) (hi : i < w.heap.owners.length) (g : Guard) :
    ObjectsOk (exec (setGuard i g) w).2.objects ∧ (exec (setGuard i g) w).2.guard i = g := by
  refine ⟨⟨ho.separated, (length_set ..).trans ho.guards, ho.lists⟩, ?_⟩
  show (w.objects.guards.set i g).getD i .none = g
  have hlt : i < w.objects.guards.length := ho.guards ▸ hi
  simp [getD_eq_getElem?_getD, hlt]

theorem getDefaultRequestHeaderGuard_cases (P : Platform) : getDefaultRequestHeaderGuard P = .request ∨ getDefaultRequestHeaderGuard P = .none := by
  unfold getDefaultRequestHeaderGuard
  split
  · exact Or.inl rfl
  · exact Or.inr rfl

theorem newHeadersOf_cases (ho : ObjectsOk w.objects) {init : HeadersInit} (ht : init.truthy = true) (hi : w.hasHeaders init = true) (input : Request) :
    (∃ h base, exec (newHeadersOf init) w = (.ok w.heap.owners.length, w.added h) ∧ Base w input init base ∧ ObjectsOk (w.added h).objects ∧
      h.view = w.heap.view ++ [base] ∧ w.heap.owners.length < (w.added h).heap.owners.length) ∨ ∃ e, exec (newHeadersOf init) w = (.error e, w) := by
  cases init with
  | undefined => cases ht
  | null => cases ht
  | tuples l =>
    rcases newHeaders_exec ho.separated l with ⟨h, base, he, ha, hs, hview⟩ | ⟨e, he, -⟩
    · obtain ⟨ho', hlt⟩ := ho.add hs hview (appendAll_headersOk Headers.empty.ok ha)
      exact Or.inl ⟨h, base, he, ha, ho', hview, hlt⟩
    · exact Or.inr ⟨.js e, he⟩
  | object j =>
    obtain ⟨a, ha⟩ := owner_of_lt (of_decide_eq_true hi)
    have hs := share_separated ho.separated (ho.separated.lt_of_owner ha)
    obtain ⟨ho', hlt⟩ := ho.add hs (share_view w.heap a) (list_eq ha ▸ ho.headersOk j)
    have he := shareHeaders_exec w j
    rw [headersData_eq ha] at he
    exact Or.inl ⟨_, w.heap.read a, he, (list_eq ha).symm, ho', share_view w.heap a, hlt⟩

/-- The end of the constructor, from a world `v` with the list `l` of the input. -/
theorem finishRequest_spec {v : World} {b : Body} (P : Platform) (init : RequestInit) (i : Nat) (body : BodyInit) (hv : v.requests[k]? = some (input.withBody b)) (hs : v.signals = w.signals)
    (hlt : input.headers < v.heap.owners.length) :
    (exec (finishRequest P (.request k) init i body) v).2.list input.headers = v.list input.headers ∧
      ∀ r w', exec (finishRequest P (.request k) init i body) v = (.ok r, w') → Copied w w' input init (v.list input.headers) r :=
  ⟨(finishRequest_keeps hv body).moved.list _ hlt, fun _ _ h => finishRequest_copied hv hs hlt h⟩

def settle (P : Platform) (k : Nat) (init : RequestInit) (i : Nat) (body : BodyInit) : Script Request :=
  setGuard i (getDefaultRequestHeaderGuard P) >>= fun _ => extractBody i body >>= finishRequest P (.request k) init i

/-- The object `i` gets a `content-type`, and it is the one of the input. -/
def Marks (w : World) (input : Request) (i : Nat) (body : BodyInit) (l : HeaderList) : Prop :=
  i = input.headers ∧ ∃ t, Typed body (w.list input.headers) t ∧ legalValue (trimmed t) = true ∧ l = w.list input.headers ++ [(contentType, trimmed t)]

/-- The world `v` agrees with `w` on the input. -/
structure Agrees (w v : World) (k : Nat) (input : Request) : Prop where
  objects : ObjectsOk v.objects
  request : ∃ b, v.requests[k]? = some (input.withBody b)
  signals : v.signals = w.signals
  lt : input.headers < v.heap.owners.length
  list : v.list input.headers = w.list input.headers

theorem settle_spec {v : World} (P : Platform) (init : RequestInit) (body : BodyInit) (hv : Agrees w v k input) (hi : i < v.heap.owners.length) :
    ∃ after, (Marks w input i body after ∨ ((∀ l, ¬Marks w input i body l) ∧ after = w.list input.headers)) ∧
      (exec (settle P k init i body) v).2.list input.headers = after ∧
      ∀ r w', exec (settle P k init i body) v = (.ok r, w') →
        Copied w w' input init after r ∧ (i = input.headers → ∀ t, Typed body (w.list input.headers) t → legalValue (trimmed t) = true) := by
  obtain ⟨b, hb⟩ := hv.request
  obtain ⟨ho, hguard⟩ := setGuard_spec hv.objects hi (getDefaultRequestHeaderGuard P)
  have hset : exec (settle P k init i body) v = exec (extractBody i body >>= finishRequest P (.request k) init i)
      (exec (setGuard i (getDefaultRequestHeaderGuard P)) v).2 := exec_bind_ok rfl
  generalize hv1 : (exec (setGuard i (getDefaultRequestHeaderGuard P)) v).2 = v1 at ho hguard hset
  have hb1 : v1.requests[k]? = some (input.withBody b) := hv1 ▸ hb
  have hs1 : v1.signals = w.signals := hv1 ▸ hv.signals
  have hheap : v1.heap = v.heap := hv1 ▸ rfl
  have hlist : ∀ x, v1.list x = v.list x := fun x => hv1 ▸ rfl
  have hlt1 : input.headers < v1.heap.owners.length := hheap ▸ hv.lt
  have hsame : i = input.headers → v1.list i = w.list input.headers := fun h => by rw [hlist, h, hv.list]
  rw [hset]
  rcases extractBody_cases ho (hheap ▸ hi) (hguard ▸ getDefaultRequestHeaderGuard_cases P) body with
    ⟨t, h, body', ht, hlegal, he, hview⟩ | ⟨t, e, ht, hlegal, he⟩ | ⟨hno, body', he⟩
  · rw [exec_bind_ok he]
    have hlen : (v1.setHeap h).heap.owners.length = v1.heap.owners.length := by
      show h.owners.length = v1.heap.owners.length
      rw [← view_length, hview, length_set, view_length]
    obtain ⟨hfinal, hmade⟩ := finishRequest_spec (w := w) (v := v1.setHeap h) P init i body' hb1 hs1 (hlen ▸ hlt1)
    refine ⟨(v1.setHeap h).list input.headers, ?_, hfinal, fun r w' hr => ⟨hmade r w' hr, ?_⟩⟩
    · by_cases hin : i = input.headers
      · refine Or.inl ⟨hin, t, hsame hin ▸ ht, hlegal, ?_⟩
        rw [← hsame hin, ← hin]
        exact list_setHeap (hheap ▸ hi) hview
      · refine Or.inr ⟨fun l hm => hin hm.1, ?_⟩
        rw [← hv.list, ← hlist input.headers]
        show h.view.getD input.headers [] = v1.heap.view.getD input.headers []
        rw [hview, getD_eq_getElem?_getD, getD_eq_getElem?_getD, getElem?_set_ne hin]
    · intro hin t' ht'
      have := ht.2.1.symm.trans ht'.2.1
      cases this
      exact hlegal
  · rw [exec_bind_error he]
    refine ⟨w.list input.headers, Or.inr ⟨fun l hm => ?_, rfl⟩, (hlist _).trans hv.list, fun r w' hr => nomatch hr⟩
    obtain ⟨-, t', ht', hlegal', -⟩ := hm
    have := ht.2.1.symm.trans ht'.2.1
    cases this
    exact hlegal hlegal'
  · rw [exec_bind_ok he]
    obtain ⟨hfinal, hmade⟩ := finishRequest_spec (w := w) P init i body' hb1 hs1 hlt1
    have hl : v1.list input.headers = w.list input.headers := (hlist _).trans hv.list
    refine ⟨w.list input.headers, Or.inr ⟨fun l hm => ?_, rfl⟩, hfinal.trans hl, fun r w' hr => ⟨hl ▸ hmade r w' hr, fun hin t ht => ?_⟩⟩
    · obtain ⟨hin, t, ht, -⟩ := hm
      exact hno t (hsame hin ▸ ht)
    · exact absurd (hsame hin ▸ ht) (hno t)

/-- What the constructor does to the input's list and what it makes. -/
structure Constructed (P : Platform) (w : World) (k : Nat) (input : Request) (init : RequestInit) (after : HeaderList) : Prop where
  touched : Touches w k input init after ∨ (∀ l, ¬Touches w k input init l) ∧ after = w.list input.headers
  list : (exec (newRequest P (.request k) init) w).2.list input.headers = after
  made : ∀ r w', exec (newRequest P (.request k) init) w = (.ok r, w') →
    Copied w w' input init after r ∧ ∃ b w1 base, exec (initBody (.request k) init.body) w = (.ok b, w1) ∧ Base w input init.headers base ∧
      (init.headers.truthy = false → ∀ t, Typed b (w.list input.headers) t → legalValue (trimmed t) = true)

theorem base_iff {init : HeadersInit} {base : HeaderList} (hf : init.truthy = false) : Base w input init base ↔ base = w.list input.headers := by
  cases init with
  | undefined | null => exact Iff.rfl
  | tuples l | object j => cases hf

theorem Base.congr {init : HeadersInit} {base : HeaderList} (h : w'.objects = w.objects) (hb : Base w' input init base) : Base w input init base := by
  have hlist : ∀ x, w'.list x = w.list x := fun x => by rw [World.list, World.list, h]
  cases init with
  | tuples l => exact hb
  | object j => exact Eq.trans hb (hlist j)
  | undefined | null => exact Eq.trans hb (hlist input.headers)

/-- The constructor, from the world `w1` in which the body `b` has been found. -/
theorem newRequest_exec {b : BodyInit} {w1 : World} (he : exec (initBody (.request k) init.body) w = (.ok b, w1)) :
    exec (newRequest P (.request k) init) w = exec (initHeaders (.request k) init.headers >>= fun i => settle P k init i b) w1 :=
  exec_bind_ok he

/-- The headers are made from `init.headers`, and the input's object is not touched. -/
theorem newRequest_given {b : BodyInit} {w1 : World} (he : exec (initBody (.request k) init.body) w = (.ok b, w1)) (hv : Agrees w w1 k input)
    (hobjects : w1.objects = w.objects) (ht : init.headers.truthy = true) (hi : w1.hasHeaders init.headers = true) :
    Constructed P w k input init (w.list input.headers) := by
  have hnot : ∀ l, ¬Touches w k input init l := fun l h => absurd (h.1.symm.trans ht) Bool.false_ne_true
  have hrest := newRequest_exec (P := P) he
  rw [show initHeaders (.request k) init.headers = newHeadersOf init.headers from if_pos ht] at hrest
  rcases newHeadersOf_cases hv.objects ht hi input with ⟨h, base, hnew, hbase, ho, hview, hlt⟩ | ⟨e, hnew⟩
  · have hkeeps : KeepsLists w1 (w1.added h) := KeepsLists.added hview
    have hv' : Agrees w (w1.added h) k input :=
      ⟨ho, hv.request, hv.signals, hv.lt.trans_le hkeeps.count, (hkeeps.list _ hv.lt).trans hv.list⟩
    rw [exec_bind_ok hnew] at hrest
    obtain ⟨after, hmarks, hlist, hmade⟩ := settle_spec P init b hv' hlt
    have hne : w1.heap.owners.length ≠ input.headers := Nat.ne_of_gt hv.lt
    have hafter : after = w.list input.headers := hmarks.elim (fun h => absurd h.1 hne) fun h => h.2
    subst hafter
    refine ⟨Or.inr ⟨hnot, rfl⟩, hrest ▸ hlist, fun r w' hr => ?_⟩
    rw [hrest] at hr
    exact ⟨(hmade r w' hr).1, b, w1, base, he, hbase.congr hobjects, fun hf => absurd (hf.symm.trans ht) Bool.false_ne_true⟩
  · rw [exec_bind_error hnew] at hrest
    refine ⟨Or.inr ⟨hnot, rfl⟩, ?_, fun r w' hr => ?_⟩
    · rw [hrest]
      exact hv.list
    · cases hrest.symm.trans hr

theorem newRequest_aliased {b : BodyInit} {w1 : World} (he : exec (initBody (.request k) init.body) w = (.ok b, w1)) (hv : Agrees w w1 k input)
    (hf : init.headers.truthy = false) : ∃ after, Constructed P w k input init after := by
  have hsame : exec (initHeaders (.request k) init.headers) w1 = (.ok input.headers, w1) := by
    obtain ⟨b', hb'⟩ := hv.request
    rw [initHeaders, hf, if_neg Bool.false_ne_true]
    exact (exec_bind_ok (getRequest_exec hb')).trans rfl
  have hrest := newRequest_exec (P := P) he
  rw [exec_bind_ok hsame] at hrest
  have htouch : ∀ l, Touches w k input init l ↔ Marks w input input.headers b l := by
    refine fun l => ⟨fun h => ?_, fun h => ?_⟩
    · obtain ⟨-, b', w1', t, he', ht', hl⟩ := h
      cases he.symm.trans he'
      exact ⟨rfl, t, ht', hl⟩
    · obtain ⟨-, t, ht', hl⟩ := h
      exact ⟨hf, b, w1, t, he, ht', hl⟩
  obtain ⟨after, hmarks, hlist, hmade⟩ := settle_spec P init b hv hv.lt
  simp only [← htouch] at hmarks
  refine ⟨after, hmarks, hrest ▸ hlist, fun r w' hr => ?_⟩
  rw [hrest] at hr
  exact ⟨(hmade r w' hr).1, b, w1, _, he, (base_iff hf).mpr rfl, fun _ => (hmade r w' hr).2 rfl⟩

theorem newRequest_spec (hw : Ok w) (hk : w.requests[k]? = some input) (hi : w.hasInit init = true) : ∃ after, Constructed P w k input init after := by
  rw [World.hasInit, Bool.and_eq_true, Bool.and_eq_true] at hi
  obtain ⟨⟨hheaders, hbody⟩, -⟩ := hi
  have hinput := hw.requests input (mem_of_getElem? hk)
  have hpeek := (initBody_peeks k init.body w).moved input hk
  have hkept := (initBody_moves hw (.request k) hbody).moved
  rcases he : exec (initBody (.request k) init.body) w with ⟨b | b, w1⟩ <;> rw [he] at hpeek hkept
  · have hend : exec (newRequest P (.request k) init) w = (.error b, w1) := exec_bind_error he
    refine ⟨_, Or.inr ⟨fun l ht => ?_, rfl⟩, ?_, fun r w' hr => ?_⟩
    · obtain ⟨-, b', w1', t, he', -⟩ := ht
      cases he.symm.trans he'
    · rw [hend, World.list, World.list, hpeek.objects]
    · cases hend.symm.trans hr
  · have hv : Agrees w w1 k input :=
      ⟨hkept.ok.objects, hpeek.request, hpeek.signals, hinput.headers.trans_le hkept.headers, by rw [World.list, World.list, hpeek.objects]⟩
    by_cases ht : init.headers.truthy = true
    · exact ⟨_, newRequest_given he hv hpeek.objects ht (hasHeaders_kept hheaders hkept)⟩
    · exact newRequest_aliased he hv (Bool.eq_false_of_not_eq_true ht)

/-! ## What it should do -/

/-- The `Content-Type` that goes with a body. -/
def typeOf : BodyInit → Option Text
  | .string bytes => if bytes = [] then none else some "text/plain;charset=UTF-8".toList
  | .params _ => some "application/x-www-form-urlencoded;charset=UTF-8".toList
  | .form _ _ boundary => some ("multipart/form-data; boundary=".toList ++ boundary)
  | .blob _ _ type => if type = [] then none else some type
  | _ => none

def withType (l : HeaderList) : Option Text → HeaderList
  | some t => if dataHas l contentType then l else l ++ [(contentType, trimmed t)]
  | none => l

/-- The new request should have the list `l`. -/
def Asked (w : World) (k : Nat) (input : Request) (init : RequestInit) (l : HeaderList) : Prop :=
  ∃ b w1 base, exec (initBody (.request k) init.body) w = (.ok b, w1) ∧ Base w input init.headers base ∧ l = withType base (typeOf b)

/-- The constructor does what it is there for. -/
structure Right (P : Platform) (w : World) (k : Nat) (input : Request) (init : RequestInit) : Prop where
  unchanged : (exec (newRequest P (.request k) init) w).2.list input.headers = w.list input.headers
  headers : ∀ r w', exec (newRequest P (.request k) init) w = (.ok r, w') → Asked w k input init (w'.list r.headers)
  signal : ∀ r w', exec (newRequest P (.request k) init) w = (.ok r, w') → Agree w'.signals r.signal (init.signal.getD input.signal)
  method : ∀ r w', exec (newRequest P (.request k) init) w = (.ok r, w') → r.method = (init.method.map normalizeMethod).getD input.method
  independent : ∀ r w', exec (newRequest P (.request k) init) w = (.ok r, w') → Independent w'.objects r.headers input.headers

/-- Nothing that `init` asks for is lost in the copy of the input's headers. -/
def SameHeaders (w : World) (k : Nat) (input : Request) (init : RequestInit) : Prop :=
  if init.headers.truthy then Asked w k input init (w.list input.headers)
  else dataHas (w.list input.headers) contentType = true ∨ ∀ c bytes type, init.body = .blob c bytes type → type = []

/-- What has to hold of the input and `init`, and, when a request is made, of what `init` gives. -/
structure Harmless (P : Platform) (w : World) (k : Nat) (input : Request) (init : RequestInit) : Prop where
  untouched : ∀ l, ¬Touches w k input init l
  headers : ∀ r w', exec (newRequest P (.request k) init) w = (.ok r, w') → SameHeaders w k input init
  signal : ∀ r w', exec (newRequest P (.request k) init) w = (.ok r, w') → ∀ s, init.signal = some s → Agree w'.signals input.signal s
  method : ∀ r w', exec (newRequest P (.request k) init) w = (.ok r, w') → init.method = some [] → input.method = []

theorem Touches.ne {l : HeaderList} (h : Touches w k input init l) : l ≠ w.list input.headers := by
  obtain ⟨-, b, w1, t, -, -, -, rfl⟩ := h
  simp

/-- A `Blob` can only come from `init`. -/
theorem initBody_blob {body : BodyInit} {c : Text} {bytes : Bytes} {type : Text} (h : exec (initBody (.request k) body) w = (.ok (.blob c bytes type), w')) :
    body = .blob c bytes type := by
  unfold initBody at h
  split at h
  · cases h
    rfl
  · obtain ⟨r, w1, -, h1⟩ := exec_bind_eq_ok.mp h
    split at h1
    · obtain ⟨-, w2, -, h2⟩ := exec_bind_eq_ok.mp h1
      rcases hs : r.bodySource with _ | _ | _ | _ <;> rw [hs] at h2 <;> cases h2
    · obtain ⟨s, w2, -, h2⟩ := exec_bind_eq_ok.mp h1
      cases s with
      | none => cases h2
      | some j =>
        obtain ⟨-, w3, -, h3⟩ := exec_bind_eq_ok.mp h2
        cases h3

theorem initBody_given (k : Nat) (w : World) (body : BodyInit) (h : body.truthy = true) : exec (initBody (.request k) body) w = (.ok body, w) := by
  rw [initBody, if_pos h]
  rfl

/-- With no type that could be set, only that of a `Blob` is missing. -/
theorem withType_eq_iff {b : BodyInit} {l : HeaderList} (hno : ∀ t, ¬Typed b l t) :
    withType l (typeOf b) = l ↔ dataHas l contentType = true ∨ ∀ c bytes type, b = .blob c bytes type → type = [] := by
  by_cases hl : dataHas l contentType = true
  · refine iff_of_true ?_ (Or.inl hl)
    cases typeOf b with
    | none => rfl
    | some t => exact if_pos hl
  · have hl' : dataHas l contentType = false := Bool.eq_false_of_not_eq_true hl
    have happend : ∀ t, withType l (some t) ≠ l := fun t => by
      rw [withType, if_neg hl]
      simp
    cases b with
    | params bytes => exact absurd ⟨rfl, rfl, hl'⟩ (hno _)
    | form text written boundary => exact absurd ⟨rfl, rfl, hl'⟩ (hno _)
    | string bytes =>
      have hempty : bytes = [] := by
        by_contra hne
        exact hno _ ⟨by simpa [BodyInit.truthy] using hne, rfl, hl'⟩
      rw [typeOf, if_pos hempty]
      exact iff_of_true rfl (Or.inr fun c bytes' type h => by cases h)
    | blob c bytes type =>
      by_cases htype : type = []
      · rw [typeOf, if_pos htype]
        exact iff_of_true rfl (Or.inr fun c' bytes' type' h => by cases h; exact htype)
      · rw [typeOf, if_neg htype]
        refine iff_of_false (happend type) fun h => ?_
        exact htype (h.resolve_left hl c bytes type rfl)
    | none | falsy | buffer bytes | stream k | other c => exact iff_of_true rfl (Or.inr fun c bytes type h => by cases h)

/-- Without `init.headers`, the copy of the input's list is what was asked for. -/
theorem asked_iff {b : BodyInit} {w1 : World} (he : exec (initBody (.request k) init.body) w = (.ok b, w1)) (hf : init.headers.truthy = false)
    (hno : ∀ t, ¬Typed b (w.list input.headers) t) :
    Asked w k input init (w.list input.headers) ↔
      dataHas (w.list input.headers) contentType = true ∨ ∀ c bytes type, init.body = .blob c bytes type → type = [] := by
  have hblob : ∀ c bytes type, b = .blob c bytes type ↔ init.body = .blob c bytes type := by
    refine fun c bytes type => ⟨fun h => ?_, fun h => ?_⟩
    · exact initBody_blob (h ▸ he)
    · have hgiven := initBody_given k w init.body (h ▸ rfl)
      cases he.symm.trans hgiven
      exact h
  simp only [← hblob]
  rw [← withType_eq_iff hno]
  refine ⟨fun h => ?_, fun h => ⟨b, w1, _, he, (base_iff hf).mpr rfl, h.symm⟩⟩
  obtain ⟨b', w1', base, he', hb, hl⟩ := h
  cases he.symm.trans he'
  rw [(base_iff hf).mp hb] at hl
  exact hl.symm

theorem chosenMethod_eq_iff (old : Text) (method : Option Text) :
    chosenMethod old method = (method.map normalizeMethod).getD old ↔ (method = some [] → old = []) := by
  cases method with
  | none => exact iff_of_true rfl nofun
  | some m =>
    by_cases hm : m = []
    · subst hm
      have hnil : normalizeMethod [] = [] := by decide
      simp [chosenMethod, hnil]
    · simp [chosenMethod, hm]

variable {events : List Event}

theorem Constructed.untouched_iff {after : HeaderList} (h : Constructed P w k input init after) :
    (∀ l, ¬Touches w k input init l) ↔ after = w.list input.headers := by
  rcases h.touched with ht | ⟨hn, hl⟩
  · exact iff_of_false (fun h => h after ht) ht.ne
  · exact iff_of_true hn hl

/-- With the input's list as it was, the headers are right exactly if those asked for are the same. -/
theorem Constructed.asked_iff_same (h : Constructed P w k input init (w.list input.headers)) (hr : exec (newRequest P (.request k) init) w = (.ok r, w')) :
    Asked w k input init (w'.list r.headers) ↔ SameHeaders w k input init := by
  obtain ⟨hcopied, b, w1, base, he, -, hlegal⟩ := h.made r w' hr
  rw [hcopied.list]
  unfold SameHeaders
  split
  · exact Iff.rfl
  · next ht =>
    have hf : init.headers.truthy = false := Bool.eq_false_of_not_eq_true ht
    refine asked_iff he hf fun t htyped => ?_
    exact h.untouched_iff.mpr rfl _ ⟨hf, b, w1, t, he, htyped, hlegal hf t htyped, rfl⟩

/-- The new signal follows the input's, and so another one only if that is aborted with the input's. -/
theorem Copied.agree_iff {after : HeaderList} (h : Copied w w' input init after r) (hs : Sound w.signals) (hlt : input.signal < w.signals.length) :
    Agree w'.signals r.signal (init.signal.getD input.signal) ↔ ∀ s, init.signal = some s → Agree w'.signals input.signal s := by
  have hfollow : Agree w'.signals r.signal input.signal := by
    rw [h.signal, h.signals]
    exact follow_agrees hs hlt
  cases init.signal with
  | none => exact iff_of_true hfollow fun s hs => by cases hs
  | some s =>
    refine ⟨fun h s' hs' => ?_, fun h => hfollow.trans (h s rfl)⟩
    cases hs'
    exact hfollow.symm.trans h

theorem request_right_iff (hr : run (World.step P) {} events = some w) (hk : w.requests[k]? = some input) (hi : w.hasInit init = true) :
    Right P w k input init ↔ Harmless P w k input init := by
  have hw := ok_of_run hr
  have hinput := hw.requests input (mem_of_getElem? hk)
  obtain ⟨after, hnew⟩ := newRequest_spec (P := P) hw hk hi
  have hsignal := fun r w' hr => (hnew.made r w' hr).1.agree_iff hw.signals hinput.signal
  have hmethod : ∀ r w', exec (newRequest P (.request k) init) w = (.ok r, w') →
      (r.method = (init.method.map normalizeMethod).getD input.method ↔ (init.method = some [] → input.method = [])) := by
    intro r w' hr
    rw [(hnew.made r w' hr).1.method]
    exact chosenMethod_eq_iff input.method init.method
  constructor
  · intro h
    obtain rfl : after = w.list input.headers := hnew.list.symm.trans h.unchanged
    exact ⟨hnew.untouched_iff.mpr rfl, fun r w' hr => (hnew.asked_iff_same hr).mp (h.headers r w' hr),
      fun r w' hr => (hsignal r w' hr).mp (h.signal r w' hr), fun r w' hr => (hmethod r w' hr).mp (h.method r w' hr)⟩
  · intro h
    obtain rfl : after = w.list input.headers := hnew.untouched_iff.mp h.untouched
    refine ⟨hnew.list, fun r w' hr => (hnew.asked_iff_same hr).mpr (h.headers r w' hr),
      fun r w' hr => (hsignal r w' hr).mpr (h.signal r w' hr), fun r w' hr => (hmethod r w' hr).mpr (h.method r w' hr), fun r w' hr => ?_⟩
    obtain ⟨hkept, hok⟩ := (newRequest_moves (P := P) hw (.request k) hi).of_ok hr
    exact independent_of_ne hkept.ok.objects.separated hok.headers (hinput.headers.trans_le hkept.headers) (hnew.made r w' hr).1.fresh

def posted : List Event :=
  [.controller, .request (.other "http://a/".toList) { method := some "POST".toList, headers := .tuples [("x-a".toList, "1".toList)] }]

theorem request_right_put : ∃ w input, run (World.step plainPlatform) {} posted = some w ∧ w.requests[0]? = some input ∧
    Right plainPlatform w 0 input { method := some "PUT".toList } := by
  refine ⟨_, _, rfl, rfl, ?_⟩
  refine (request_right_iff (show run (World.step plainPlatform) {} posted = some _ from rfl) rfl rfl).mpr ⟨?_, fun _ _ _ => ?_, fun _ _ _ s hs => ?_, fun _ _ _ hm => ?_⟩
  · rintro l ⟨-, b, w1, t, he, ht, -⟩
    cases he
    cases ht.1
  · exact Or.inr fun c bytes type h => by cases h
  · cases hs
  · cases hm

/-- The headers and the signal of `init` are dropped, and a string body shows in the input's headers. -/
theorem init_lost : ∃ w input, run (World.step plainPlatform) {} posted = some w ∧ w.requests[0]? = some input ∧
    (∃ r w' l, exec (newRequest plainPlatform (.request 0) { headers := .tuples [("x-b".toList, "2".toList)], signal := some 0 }) w = (.ok r, w') ∧
      w'.list r.headers = [("x-a".toList, "1".toList)] ∧
      Dom.Signal.step w'.signals (.abort 0) = some l ∧ isAborted l 0 = true ∧ isAborted l r.signal = false) ∧
    w.list input.headers = [("x-a".toList, "1".toList)] ∧
    (exec (newRequest plainPlatform (.request 0) { body := .string [120] }) w).2.list input.headers =
      [("x-a".toList, "1".toList), ("content-type".toList, "text/plain;charset=UTF-8".toList)] :=
  ⟨_, _, rfl, rfl, ⟨_, _, _, rfl, by decide, rfl, rfl, rfl⟩, by decide, by decide⟩

/-- In every world of a worker: the lists are header lists, the headers, signals and streams of requests and responses are there,
    and a signal that follows another is aborted exactly if that one is. -/
theorem objects_sound (hr : run (World.step P) {} events = some w) : (∀ i, HeadersOk (w.list i)) ∧ (∀ r ∈ w.requests, RequestOk w r) ∧
    (∀ p ∈ w.responses, ResponseOk w p) ∧ ∀ x, ∀ f ∈ followersOf w.signals x, isAborted w.signals f = isAborted w.signals x :=
  have hw := ok_of_run hr
  ⟨hw.objects.headersOk, hw.requests, hw.responses, hw.signals.same⟩

theorem objects_sound_posted : ∃ w r, run (World.step plainPlatform) {} posted = some w ∧ w.requests = [r] ∧ RequestOk w r :=
  ⟨_, _, rfl, rfl, (objects_sound (show run (World.step plainPlatform) {} posted = some _ from rfl)).2.1 _ mem_cons_self⟩

end Aworker.Fetch.Shared
