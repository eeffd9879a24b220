/-
  Aworker.Fetch.WorldOk — what holds in every world that a worker reaches.

  A script is taken as a whole: `Moves Kept` says that it keeps the invariant however it ends, takes
  away nothing that can be referred to, and returns objects that are there.

  `ok_of_run`: the lists are header lists, they are shared only as copy-on-write allows, and every
  reference of a request, a response or a following signal is to something that is there.
-/

import Mathlib
import Aworker.Fetch.World

namespace Aworker.Fetch.Shared

open Aworker.Lib Aworker.Lib.CopyOnWrite Aworker.Dom.Signal List Option

/-! ## The invariant -/

structure ObjectsOk (s : State) : Prop where
  separated : Separated s.heap
  guards : s.guards.length = s.heap.owners.length
  lists : ∀ data ∈ s.heap.view, HeadersOk data

structure BodyOk (w : World) (b : Body) : Prop where
  source : ∀ k, b.bodySource = .stream k → k < w.streams.length
  stream : ∀ k, b.stream = some k → k < w.streams.length

structure RequestOk (w : World) (r : Request) : Prop where
  body : BodyOk w r.toBody
  headers : r.headers < w.heap.owners.length
  signal : r.signal < w.signals.length

structure ResponseOk (w : World) (p : Response) : Prop where
  body : BodyOk w p.toBody
  headers : p.headers < w.heap.owners.length

structure Ok (w : World) : Prop where
  objects : ObjectsOk w.objects
  signals : Sound w.signals
  requests : ∀ r ∈ w.requests, RequestOk w r
  responses : ∀ p ∈ w.responses, ResponseOk w p

/-- Nothing that can be referred to goes away. -/
structure Kept (w w' : World) : Prop where
  ok : Ok w'
  headers : w.heap.owners.length ≤ w'.heap.owners.length
  streams : w.streams.length ≤ w'.streams.length
  signals : w.signals.length ≤ w'.signals.length

variable {P : Platform} {w w' : World} {h : Heap} {i k : Nat}

theorem Kept.refl (hw : Ok w) : Kept w w := ⟨hw, Nat.le_refl _, Nat.le_refl _, Nat.le_refl _⟩

theorem Kept.trans {w'' : World} (h : Kept w w') (h' : Kept w' w'') : Kept w w'' :=
  ⟨h'.ok, h.headers.trans h'.headers, h.streams.trans h'.streams, h.signals.trans h'.signals⟩

instance : IsTrans World Kept := ⟨fun _ _ _ => Kept.trans⟩

variable {b : Body}

theorem BodyOk.kept (h : BodyOk w b) (hk : w.streams.length ≤ w'.streams.length) : BodyOk w' b :=
  ⟨fun k hs => (h.source k hs).trans_le hk, fun k hs => (h.stream k hs).trans_le hk⟩

theorem Ok.moved (hw : Ok w) (hobjects : ObjectsOk w'.objects) (hsignals : Sound w'.signals) (hrequests : w'.requests = w.requests)
    (hresponses : w'.responses = w.responses) (h1 : w.heap.owners.length ≤ w'.heap.owners.length) (h2 : w.streams.length ≤ w'.streams.length)
    (h3 : w.signals.length ≤ w'.signals.length) : Kept w w' := by
  refine ⟨⟨hobjects, hsignals, fun r hr => ?_, fun p hp => ?_⟩, h1, h2, h3⟩
  · have hok := hw.requests r (hrequests ▸ hr)
    exact ⟨hok.body.kept h2, hok.headers.trans_le h1, hok.signal.trans_le h3⟩
  · have hok := hw.responses p (hresponses ▸ hp)
    exact ⟨hok.body.kept h2, hok.headers.trans_le h1⟩

theorem Ok.stored (hw : Ok w) {requests : List Request} {responses : List Response} (hr : ∀ r ∈ requests, RequestOk w r)
    (hp : ∀ p ∈ responses, ResponseOk w p) : Kept w { w with requests, responses } := by
  refine ⟨⟨hw.objects, hw.signals, fun r h => ?_, fun p h => ?_⟩, Nat.le_refl _, Nat.le_refl _, Nat.le_refl _⟩
  · have hok := hr r h
    exact ⟨⟨hok.body.source, hok.body.stream⟩, hok.headers, hok.signal⟩
  · have hok := hp p h
    exact ⟨⟨hok.body.source, hok.body.stream⟩, hok.headers⟩

theorem view_length (h : Heap) : h.view.length = h.owners.length := length_map ..

/-! ## `Headers` objects -/

/-- A new object that has the guard `none`. -/
def World.added (w : World) (h : Heap) : World := { w with objects := { w.objects with heap := h, guards := w.objects.guards ++ [.none] } }

variable {f : Heap → Except JsError Heap}

theorem onHeap_ok (hf : f w.heap = .ok h) : exec (onHeap f) w = (.ok (), w.setHeap h) := by
  rw [onHeap, exec_bind_ok (exec_get w), hf]
  rfl

theorem onHeap_error {e : JsError} (hf : f w.heap = .error e) : exec (onHeap f) w = (.error (.js e), w) := by
  rw [onHeap, exec_bind_ok (exec_get w), hf]
  rfl

theorem newHeaders_exec (hs : Separated w.heap) (init : HeaderList) :
    (∃ h l, exec (newHeaders init) w = (.ok w.heap.owners.length, w.added h) ∧ Deep.appendAll init [] = .ok l ∧ Separated h ∧
      h.view = w.heap.view ++ [l]) ∨ ∃ e, exec (newHeaders init) w = (.error (.js e), w) ∧ Deep.appendAll init [] = .error e := by
  rcases construct_spec init hs with ⟨h, l, hc, ha, hs', hview⟩ | ⟨e, hc, ha⟩
  · refine Or.inl ⟨h, l, ?_, ha, hs', hview⟩
    rw [newHeaders, exec_bind_ok (exec_get w), exec_bind_ok (onHeap_ok hc)]
    rfl
  · refine Or.inr ⟨e, ?_, ha⟩
    rw [newHeaders, exec_bind_ok (exec_get w), exec_bind_error (onHeap_error hc)]

theorem shareHeaders_exec (w : World) (i : Nat) : exec (shareHeaders i) w = (.ok w.heap.owners.length, w.added (w.heap.share (headersData w.heap i))) := by
  rw [shareHeaders, exec_bind_ok (exec_get w), exec_bind_ok (onHeap_ok (f := fun h => .ok (h.share (headersData h i))) rfl)]
  rfl

variable {r : Except JsError HeaderList}

theorem writeHeaders_exec {f : Heap → Nat → Guard → Except JsError Heap}
    (hm : Matches w.heap i (f w.heap i (w.guard i)) r) :
    (∃ h l, exec (writeHeaders i f) w = (.ok (), w.setHeap h) ∧ r = .ok l ∧ Separated h ∧ h.view = w.heap.view.set i l) ∨
      ∃ e, exec (writeHeaders i f) w = (.error (.js e), w) ∧ r = .error e := by
  rw [writeHeaders, exec_bind_ok (exec_get w)]
  generalize hr : f w.heap i (w.guard i) = x at hm
  cases hm with
  | @ok h l hs hview => exact Or.inl ⟨h, l, onHeap_ok hr, rfl, hs, hview⟩
  | error e => exact Or.inr ⟨e, onHeap_error hr, rfl⟩

theorem owner_of_lt (hi : i < w.heap.owners.length) : ∃ a, w.heap.owners[i]? = some a := ⟨_, getElem?_eq_getElem hi⟩

theorem list_eq {a : Nat} (ha : w.heap.owners[i]? = some a) : w.list i = w.heap.read a := by
  rw [World.list, State.list, getD_eq_getElem?_getD]
  exact congrArg (·.getD []) (view_getElem? ha)

theorem ObjectsOk.headersOk (ho : ObjectsOk w.objects) (i : Nat) : HeadersOk (w.list i) := by
  rw [World.list, State.list, getD_eq_getElem?_getD]
  cases hl : w.objects.heap.view[i]? with
  | none => exact Headers.empty.ok
  | some data => exact ho.lists data (mem_of_getElem? hl)

variable {l : HeaderList}

theorem ObjectsOk.add (ho : ObjectsOk w.objects) (hs : Separated h) (hview : h.view = w.heap.view ++ [l]) (hl : HeadersOk l) :
    ObjectsOk (w.added h).objects ∧ w.heap.owners.length < (w.added h).heap.owners.length := by
  have hlen : h.owners.length = w.heap.owners.length + 1 := by rw [← view_length, hview, length_append, view_length]; rfl
  refine ⟨⟨hs, ?_, fun data hd => ?_⟩, ?_⟩
  · show (w.objects.guards ++ [Guard.none]).length = h.owners.length
    rw [length_append, ho.guards, hlen]
    rfl
  · rw [show (w.added h).objects.heap = h from rfl, hview] at hd
    rcases mem_append.mp hd with hd | hd
    · exact ho.lists data hd
    · exact mem_singleton.mp hd ▸ hl
  · show w.heap.owners.length < h.owners.length
    omega

theorem Ok.add (hw : Ok w) (hs : Separated h) (hview : h.view = w.heap.view ++ [l]) (hl : HeadersOk l) :
    Kept w (w.added h) ∧ w.heap.owners.length < (w.added h).heap.owners.length := by
  obtain ⟨hobjects, hlt⟩ := hw.objects.add hs hview hl
  exact ⟨hw.moved hobjects hw.signals rfl rfl hlt.le (Nat.le_refl _) (Nat.le_refl _), hlt⟩

theorem Ok.write (hw : Ok w) (hs : Separated h) (hview : h.view = w.heap.view.set i l) (hl : HeadersOk l) : Kept w (w.setHeap h) := by
  have hlen : h.owners.length = w.heap.owners.length := by rw [← view_length, hview, length_set, view_length]
  have hobjects : ObjectsOk (w.setHeap h).objects := by
    refine ⟨hs, hw.objects.guards.trans hlen.symm, fun data hd => ?_⟩
    rw [show (w.setHeap h).objects.heap = h from rfl, hview] at hd
    rcases mem_or_eq_of_mem_set hd with hd | rfl
    · exact hw.objects.lists data hd
    · exact hl
  exact hw.moved hobjects hw.signals rfl rfl hlen.symm.le (Nat.le_refl _) (Nat.le_refl _)

theorem newHeaders_moves (hw : Ok w) (init : HeaderList) : Moves Kept (newHeaders init) w fun i w' => i < w'.heap.owners.length := by
  rcases newHeaders_exec hw.objects.separated init with ⟨h, l, he, ha, hs, hview⟩ | ⟨e, he, -⟩
  · have hadd := hw.add hs hview (appendAll_headersOk Headers.empty.ok ha)
    exact moves_ok he hadd.1 hadd.2
  · exact moves_error he (Kept.refl hw)

theorem shareHeaders_moves (hw : Ok w) (hi : i < w.heap.owners.length) :
    Moves Kept (shareHeaders i) w fun i w' => i < w'.heap.owners.length := by
  obtain ⟨a, ha⟩ := owner_of_lt hi
  have hs := share_separated hw.objects.separated (hw.objects.separated.lt_of_owner ha)
  have hadd := hw.add hs (share_view w.heap a) (list_eq ha ▸ hw.objects.headersOk i)
  have he := shareHeaders_exec w i
  rw [headersData_eq ha] at he
  exact moves_ok he hadd.1 hadd.2

variable {init : HeadersInit}

theorem newHeadersOf_moves (hw : Ok w) (hi : w.hasHeaders init = true) :
    Moves Kept (newHeadersOf init) w fun i w' => i < w'.heap.owners.length := by
  cases init with
  | undefined => exact newHeaders_moves hw []
  | null => exact moves_error rfl (Kept.refl hw)
  | tuples l => exact newHeaders_moves hw l
  | object i => exact shareHeaders_moves hw (of_decide_eq_true hi)

theorem setGuard_kept (hw : Ok w) (i : Nat) (guard : Guard) : Kept w (exec (setGuard i guard) w).2 :=
  hw.moved ⟨hw.objects.separated, (length_set ..).trans hw.objects.guards, hw.objects.lists⟩ hw.signals rfl rfl (Nat.le_refl _) (Nat.le_refl _)
    (Nat.le_refl _)

theorem writeHeaders_moves (hw : Ok w) {f : Heap → Nat → Guard → Except JsError Heap}
    (hm : Matches w.heap i (f w.heap i (w.guard i)) r) (hr : ∀ l, r = .ok l → HeadersOk l) : Moves Kept (writeHeaders i f) w fun _ _ => True := by
  rcases writeHeaders_exec hm with ⟨h, l, he, hok, hs, hview⟩ | ⟨e, he, -⟩
  · exact moves_ok he (hw.write hs hview (hr l hok)) trivial
  · exact moves_error he (Kept.refl hw)

/-! ## Bodies -/

theorem newStream_moves (hw : Ok w) (contents : Except JsError Bytes) : Moves Kept (newStream contents) w fun k w' => k < w'.streams.length := by
  refine moves_ok rfl ?_ (by simp)
  exact hw.moved hw.objects hw.signals rfl rfl (Nat.le_refl _) (by simp) (Nat.le_refl _)

theorem getBody_moves (hw : Ok w) (hb : BodyOk w b) :
    Moves Kept (getBody b) w fun x w' => BodyOk w' x.1 ∧ ∀ k, x.2 = some k → k < w'.streams.length := by
  have hstay : ∀ k, b.stream = some k → Moves Kept (pure (b, some k) : Script (Body × Option Nat)) w
      fun x w' => BodyOk w' x.1 ∧ ∀ k, x.2 = some k → k < w'.streams.length :=
    fun k hk => moves_ok rfl (Kept.refl hw) ⟨hb, fun j hj => hb.stream j (hk.trans hj)⟩
  have hnone : Moves Kept (pure (b, none) : Script (Body × Option Nat)) w fun x w' => BodyOk w' x.1 ∧ ∀ k, x.2 = some k → k < w'.streams.length :=
    moves_ok rfl (Kept.refl hw) ⟨hb, fun _ h => nomatch h⟩
  have hopen : ∀ bytes, Moves Kept (newStream (.ok bytes) >>= fun k => pure ({ b with stream := some k }, some k) : Script (Body × Option Nat)) w
      fun x w' => BodyOk w' x.1 ∧ ∀ k, x.2 = some k → k < w'.streams.length := by
    intro bytes
    refine moves_bind (newStream_moves hw _) fun k w' hk hlt => moves_ok rfl (Kept.refl hk.ok) ⟨⟨?_, ?_⟩, ?_⟩
    · exact (hb.kept hk.streams).source
    · rintro j ⟨⟩
      exact hlt
    · rintro j ⟨⟩
      exact hlt
  unfold getBody
  split
  · next hs => exact hstay _ hs
  · exact hnone
  · exact hnone
  · next hsource =>
    refine moves_ok rfl (Kept.refl hw) ⟨⟨hb.source, ?_⟩, ?_⟩
    · rintro j ⟨⟩
      exact hb.source _ hsource
    · rintro j ⟨⟩
      exact hb.source _ hsource
  · exact hopen _
  · exact hopen _

theorem bodyUsed_moves (hw : Ok w) (hb : BodyOk w b) : Moves Kept (bodyUsed b) w fun x w' => BodyOk w' x.1 :=
  moves_bind (getBody_moves hw hb) fun _ _ hk hx => moves_get_bind (moves_ok rfl (Kept.refl hk.ok) hx.1)

theorem source_ok {owner : Text} {b : BodyInit} {source : Source} (hb : w.hasBody b = true) (hs : b.source owner = .ok source) :
    ∀ k, source = .stream k → k < w.streams.length := by
  rintro k rfl
  cases b with
  | stream k => cases hs; exact of_decide_eq_true hb
  | none | falsy | string _ | buffer _ | params _ | form _ _ _ | blob _ _ _ | other _ => cases hs

theorem hasBody_kept {b : BodyInit} (hb : w.hasBody b = true) (hk : Kept w w') : w'.hasBody b = true := by
  cases b with
  | stream k => exact decide_eq_true ((of_decide_eq_true hb).trans_le hk.streams)
  | none | falsy | string _ | buffer _ | params _ | form _ _ _ | blob _ _ _ | other _ => rfl

theorem hasHeaders_kept (hi : w.hasHeaders init = true) (hk : Kept w w') : w'.hasHeaders init = true := by
  cases init with
  | object i => exact decide_eq_true ((of_decide_eq_true hi).trans_le hk.headers)
  | undefined | null | tuples l => rfl

theorem ofExcept_moves {α : Type} (hw : Ok w) {x : Except Thrown α} {Q : α → World → Prop} (hx : ∀ a, x = .ok a → Q a w) :
    Moves Kept (ofExcept x : Script α) w Q := by
  cases x with
  | error e => exact moves_error rfl (Kept.refl hw)
  | ok a => exact moves_ok rfl (Kept.refl hw) (hx a rfl)

/-! ## Responses -/

theorem filterHeaders_ok (ho : ObjectsOk w.objects) (drop : Text → Bool) (hi : i < w.heap.owners.length) :
    ∃ a, w.heap.owners[i]? = some a ∧ Matches w.heap i (filterHeaders drop w.heap i (w.guard i)) (filtered drop (w.guard i) (w.unique i) (w.list i)) := by
  obtain ⟨a, ha⟩ := owner_of_lt hi
  have hm := filterHeaders_matches drop ho.separated ha (list_eq ha ▸ ho.headersOk i) (w.guard i)
  refine ⟨a, ha, ?_⟩
  rw [list_eq ha, World.unique, headersData_eq ha]
  exact hm

theorem filtered_sublist {drop : Text → Bool} {guard : Guard} {u : Bool} {data left : HeaderList} (h : filtered drop guard u data = .ok left) :
    left.Sublist data := by
  unfold filtered at h
  split at h
  · cases h
  · split at h
    · cases h
      exact strip_sublist _ _ _ _
    · cases h
      exact filter_sublist

theorem applyType_moves (hw : Ok w) (type : ResponseType) {d : Draft} (hd : d.headers < w.heap.owners.length) (hb : w.hasBody d.body = true) :
    Moves Kept (applyType type d) w fun d w' => d.headers < w'.heap.owners.length ∧ w'.hasBody d.body = true := by
  have hfresh : ∀ f : Nat → Draft, (∀ n, (f n).headers = n ∧ (f n).body = .none) →
      Moves Kept (newHeaders [] >>= fun n => pure (f n) : Script Draft) w fun d w' => d.headers < w'.heap.owners.length ∧ w'.hasBody d.body = true := by
    intro f hf
    refine moves_bind (newHeaders_moves hw []) fun n w' hk hlt => moves_ok rfl (Kept.refl hk.ok) ?_
    rw [(hf n).1, (hf n).2]
    exact ⟨hlt, rfl⟩
  have hfilter : Moves Kept (writeHeaders d.headers (filterHeaders (dropped type)) >>= fun _ => pure d : Script Draft) w
      fun d w' => d.headers < w'.heap.owners.length ∧ w'.hasBody d.body = true := by
    obtain ⟨a, ha, hm⟩ := filterHeaders_ok hw.objects (dropped type) hd
    have hwrite := writeHeaders_moves hw hm fun l hl => (hw.objects.headersOk d.headers).sublist (filtered_sublist hl)
    exact moves_bind hwrite fun _ w' hk _ => moves_ok rfl (Kept.refl hk.ok) ⟨hd.trans_le hk.headers, hasBody_kept hb hk⟩
  cases type with
  | default => exact moves_ok rfl (Kept.refl hw) ⟨hd, hb⟩
  | basic => exact hfilter
  | cors => exact hfilter
  | error => exact hfresh (fun n => { d with status := .ofInt 0, statusText := [], headers := n, body := .none }) fun _ => ⟨rfl, rfl⟩
  | opaqueFiltered | opaqueRedirect =>
    exact hfresh (fun n => { url := [], status := .ofInt 0, statusText := [], headers := n, body := .none }) fun _ => ⟨rfl, rfl⟩

theorem chosenHeaders_moves (hw : Ok w) (hi : w.hasHeaders init = true) :
    Moves Kept (chosenHeaders init) w fun i w' => i < w'.heap.owners.length := by
  cases init with
  | object i => exact moves_ok rfl (Kept.refl hw) (of_decide_eq_true hi)
  | undefined | null | tuples l => exact newHeadersOf_moves hw hi

variable {body : BodyInit}

theorem newResponse_moves (hw : Ok w) {init : ResponseInit} (hb : w.hasBody body = true) (hi : w.hasHeaders init.headers = true) :
    Moves Kept (newResponse P body init) w fun p w' => ResponseOk w' p := by
  refine moves_bind (chosenHeaders_moves hw hi) fun i w1 h1 hlt => ?_
  refine moves_throwIf_bind (Kept.refl h1.ok) fun _ => moves_throwIf_bind (Kept.refl h1.ok) fun _ => ?_
  refine moves_bind (applyType_moves h1.ok _ hlt (hasBody_kept hb h1)) fun d w2 h2 hd => ?_
  have hguard : Moves Kept (setGuard d.headers (getDefaultResponseHeaderGuard P)) w2 fun _ w' => d.headers < w'.heap.owners.length ∧ w'.hasBody d.body = true :=
    moves_ok rfl (setGuard_kept h2.ok _ _) hd
  refine moves_bind hguard fun _ w3 h3 hd3 => ?_
  refine moves_bind (ofExcept_moves h3.ok (Q := fun source w' => ∀ k, source = .stream k → k < w'.streams.length) fun source hs =>
    source_ok hd3.2 hs) fun source w4 h4 hs => ?_
  exact moves_ok rfl (Kept.refl h4.ok) ⟨⟨hs, fun _ h => nomatch h⟩, hd3.1.trans_le h4.headers⟩

variable {p : Response}

theorem setResponse_kept (hw : Ok w) (hp : ResponseOk w p) (k : Nat) : Kept w (exec (setResponse k p) w).2 := by
  refine hw.stored hw.requests fun q hq => ?_
  rcases mem_or_eq_of_mem_set hq with hq | rfl
  · exact hw.responses q hq
  · exact hp

theorem getResponse_moves (hw : Ok w) (k : Nat) : Moves Kept (getResponse k) w fun p w' => ResponseOk w' p := by
  refine moves_get_bind ?_
  cases hp : w.responses[k]? with
  | none => exact moves_error rfl (Kept.refl hw)
  | some p => exact moves_ok rfl (Kept.refl hw) (hw.responses p (mem_of_getElem? hp))

theorem responseUsed_moves (hw : Ok w) (k : Nat) : Moves Kept (responseUsed k) w fun _ _ => True := by
  refine moves_bind (getResponse_moves hw k) fun p w1 h1 hp => ?_
  refine moves_bind (bodyUsed_moves h1.ok hp.body) fun x w2 h2 hx => ?_
  have hset : Kept w2 (exec (setResponse k (p.withBody x.1)) w2).2 := setResponse_kept (p := p.withBody x.1) h2.ok ⟨hx, hp.headers.trans_le h2.headers⟩ k
  exact moves_bind (Q := fun _ _ => True) (moves_ok rfl hset trivial) fun _ _ h3 _ => moves_ok rfl (Kept.refl h3.ok) trivial

theorem tee_moves (hw : Ok w) (k : Nat) : Moves Kept (tee k) w fun x w' => x.1 < w'.streams.length ∧ x.2 < w'.streams.length := by
  refine moves_get_bind (moves_throwIf_bind (Kept.refl hw) fun _ => ?_)
  have hlock : Kept w { w with streams := w.streams.set k { w.getStream k with locked := true } } :=
    hw.moved hw.objects hw.signals rfl rfl (Nat.le_refl _) (length_set ..).symm.le (Nat.le_refl _)
  refine moves_bind (Q := fun _ _ => True) (moves_ok rfl hlock trivial) fun _ w1 h1 _ => ?_
  refine moves_bind (newStream_moves h1.ok _) fun b1 w2 h2 hb1 => ?_
  refine moves_bind (newStream_moves h2.ok _) fun b2 w3 h3 hb2 => ?_
  exact moves_ok rfl (Kept.refl h3.ok) ⟨hb1.trans_le h3.streams, hb2⟩

theorem teeBody_moves (hw : Ok w) (hp : ResponseOk w p) (k : Nat) : Moves Kept (teeBody k p) w fun b w' => w'.hasBody b = true := by
  unfold teeBody
  split
  · refine moves_bind (tee_moves hw _) fun x w1 h1 hx => ?_
    have hok : ResponseOk w1 (p.withBody { bodySource := .stream x.1, stream := some x.1 }) := by
      refine ⟨⟨?_, ?_⟩, hp.headers.trans_le h1.headers⟩
      · rintro j ⟨⟩
        exact hx.1
      · rintro j ⟨⟩
        exact hx.1
    refine moves_bind (Q := fun _ w' => w1.streams.length ≤ w'.streams.length) (moves_ok rfl (setResponse_kept h1.ok hok k) (Nat.le_refl _))
      fun _ w2 h2 hle => moves_ok rfl (Kept.refl h2.ok) ?_
    exact decide_eq_true (hx.2.trans_le hle)
  · next hne =>
    refine moves_ok rfl (Kept.refl hw) ?_
    cases hs : p.bodySource with
    | stream j => exact absurd hs (hne j)
    | null | string _ | buffer _ => rfl

theorem clone_moves (hw : Ok w) (k : Nat) : Moves Kept (clone P k) w fun p w' => ResponseOk w' p := by
  refine moves_bind (responseUsed_moves hw k) fun _ w1 h1 _ => moves_throwIf_bind (Kept.refl h1.ok) fun _ => ?_
  refine moves_bind (getResponse_moves h1.ok k) fun p w2 h2 hp => moves_get_bind ?_
  refine moves_bind (teeBody_moves h2.ok hp k) fun b w3 h3 hb => ?_
  refine moves_bind (newHeaders_moves h3.ok _) fun i w4 h4 hi => ?_
  exact newResponse_moves h4.ok (hasBody_kept hb h4) (decide_eq_true hi)

/-! ## Requests -/

theorem setRequest_kept (hw : Ok w) {r : Request} (hr : RequestOk w r) (k : Nat) : Kept w (exec (setRequest k r) w).2 := by
  refine hw.stored (fun q hq => ?_) hw.responses
  rcases mem_or_eq_of_mem_set hq with hq | rfl
  · exact hw.requests q hq
  · exact hr

theorem getRequest_moves (hw : Ok w) (k : Nat) : Moves Kept (getRequest k) w fun r w' => RequestOk w' r := by
  refine moves_get_bind ?_
  cases hr : w.requests[k]? with
  | none => exact moves_error rfl (Kept.refl hw)
  | some r => exact moves_ok rfl (Kept.refl hw) (hw.requests r (mem_of_getElem? hr))

theorem requestBody_moves (hw : Ok w) (k : Nat) : Moves Kept (requestBody k) w fun s w' => ∀ j, s = some j → j < w'.streams.length := by
  refine moves_bind (getRequest_moves hw k) fun r w1 h1 hr => ?_
  refine moves_bind (getBody_moves h1.ok hr.body) fun x w2 h2 hx => ?_
  have hset : Kept w2 (exec (setRequest k (r.withBody x.1)) w2).2 :=
    setRequest_kept (r := r.withBody x.1) h2.ok ⟨hx.1, hr.headers.trans_le h2.headers, hr.signal.trans_le h2.signals⟩ k
  exact moves_bind (moves_ok rfl hset hx.2) fun _ _ h3 hlt => moves_ok rfl (Kept.refl h3.ok) hlt

theorem checkUnused_moves (hw : Ok w) (k : Nat) : Moves Kept (checkUnused k) w fun _ _ => True := by
  have hused : Moves Kept (requestUsed k) w fun _ _ => True := by
    refine moves_bind (getRequest_moves hw k) fun r w1 h1 hr => ?_
    refine moves_bind (bodyUsed_moves h1.ok hr.body) fun x w2 h2 hx => ?_
    have hset : Kept w2 (exec (setRequest k (r.withBody x.1)) w2).2 :=
      setRequest_kept (r := r.withBody x.1) h2.ok ⟨hx, hr.headers.trans_le h2.headers, hr.signal.trans_le h2.signals⟩ k
    exact moves_bind (Q := fun _ _ => True) (moves_ok rfl hset trivial) fun _ _ h3 _ => moves_ok rfl (Kept.refl h3.ok) trivial
  refine moves_bind hused fun used w1 h1 _ => ?_
  unfold throwIf
  split
  · exact moves_error rfl (Kept.refl h1.ok)
  · exact moves_ok rfl (Kept.refl h1.ok) trivial

theorem inputBody_moves (hw : Ok w) (k : Nat) : Moves Kept (inputBody k) w fun b w' => w'.hasBody b = true := by
  refine moves_bind (getRequest_moves hw k) fun r w1 h1 hr => ?_
  split
  · refine moves_bind (checkUnused_moves h1.ok k) fun _ w2 h2 _ => moves_ok rfl (Kept.refl h2.ok) ?_
    cases hs : r.bodySource with
    | stream j => exact decide_eq_true ((hr.body.source j hs).trans_le h2.streams)
    | null | string _ | buffer _ => rfl
  · refine moves_bind (requestBody_moves h1.ok k) fun s w2 h2 hs => ?_
    cases s with
    | none => exact moves_ok rfl (Kept.refl h2.ok) rfl
    | some j =>
      refine moves_bind (checkUnused_moves h2.ok k) fun _ w3 h3 _ => moves_ok rfl (Kept.refl h3.ok) ?_
      exact decide_eq_true ((hs j rfl).trans_le h3.streams)

theorem initBody_moves (hw : Ok w) (input : RequestInput) (hb : w.hasBody body = true) :
    Moves Kept (initBody input body) w fun b w' => w'.hasBody b = true := by
  unfold initBody
  split
  · exact moves_ok rfl (Kept.refl hw) hb
  · cases input with
    | request k => exact inputBody_moves hw k
    | other text => exact moves_ok rfl (Kept.refl hw) rfl

theorem initHeaders_moves (hw : Ok w) (input : RequestInput) (hi : w.hasHeaders init = true) :
    Moves Kept (initHeaders input init) w fun i w' => i < w'.heap.owners.length := by
  unfold initHeaders
  split
  · exact newHeadersOf_moves hw hi
  · cases input with
    | request k => exact moves_bind (getRequest_moves hw k) fun r w1 h1 hr => moves_ok rfl (Kept.refl h1.ok) hr.headers
    | other text => exact newHeaders_moves hw []

theorem set_ok (ho : ObjectsOk w.objects) (name value : Text) (hi : i < w.heap.owners.length) :
    Matches w.heap i (Shared.set name value w.heap i (w.guard i)) ((Change.set name value).apply (w.list i) (w.guard i)) := by
  obtain ⟨a, ha⟩ := owner_of_lt hi
  rw [list_eq ha]
  exact set_matches name value ho.separated ha (w.guard i)

theorem extract_hasBody (hb : w.hasBody body = true) : w.hasBody (extract body).1 = true := by
  cases body with
  | stream k => exact hb
  | none | falsy | string _ | buffer _ | params _ | form _ _ _ | blob _ _ _ | other _ => rfl

theorem extractBody_moves (hw : Ok w) (hi : i < w.heap.owners.length) (hb : w.hasBody body = true) :
    Moves Kept (extractBody i body) w fun b w' => w'.hasBody b = true := by
  refine moves_get_bind ?_
  split
  · have hext := extract_hasBody hb
    rcases he : extract body with ⟨b, type⟩
    rw [he] at hext
    cases type with
    | none => exact moves_ok rfl (Kept.refl hw) hext
    | some type =>
      have hwrite := writeHeaders_moves hw (set_ok hw.objects contentType type hi) fun l hl => apply_headersOk (hw.objects.headersOk i) hl
      exact moves_bind hwrite fun _ w1 h1 _ => moves_ok rfl (Kept.refl h1.ok) (hasBody_kept hext h1)
  · exact moves_ok rfl (Kept.refl hw) hb

structure TakenOk (w : World) (t : Taken) : Prop where
  headers : t.headers < w.heap.owners.length
  stream : ∀ k, t.stream = some k → k < w.streams.length
  signal : ∀ s, t.signal = some s → s < w.signals.length

variable {signal : Option Nat}

theorem takeInput_moves (hw : Ok w) (input : RequestInput) (hi : i < w.heap.owners.length)
    (hs : ∀ s, signal = some s → s < w.signals.length) : Moves Kept (takeInput P input i signal) w fun t w' => TakenOk w' t := by
  cases input with
  | request k =>
    refine moves_bind (checkUnused_moves hw k) fun _ w1 h1 _ => ?_
    refine moves_bind (getRequest_moves h1.ok k) fun r w2 h2 hr => ?_
    refine moves_bind (shareHeaders_moves h2.ok hr.headers) fun c w3 h3 hc => moves_ok rfl (Kept.refl h3.ok) ?_
    refine ⟨hc, fun j hj => (hr.body.stream j hj).trans_le h3.streams, ?_⟩
    rintro s ⟨⟩
    exact hr.signal.trans_le h3.signals
  | other text =>
    simp only [takeInput]
    split
    · exact moves_error rfl (Kept.refl hw)
    · exact moves_ok rfl (Kept.refl hw) ⟨hi, fun _ h => (nomatch h), hs⟩

theorem followSignal_moves (hw : Ok w) (hs : ∀ s, signal = some s → s < w.signals.length) :
    Moves Kept (followSignal signal) w fun s w' => s < w'.signals.length := by
  have hspec : Sound (createFollowingSignal signal w.signals) := by
    cases signal with
    | none => exact hw.signals.create false
    | some s => exact (createFollowingSignal_spec hw.signals (hs s rfl)).1
  have hlen := createFollowingSignal_length signal w.signals
  refine moves_ok rfl ?_ ?_
  · exact hw.moved hw.objects hspec rfl rfl (Nat.le_refl _) (Nat.le_refl _) (by rw [hlen]; omega)
  · show w.signals.length < (createFollowingSignal signal w.signals).length
    omega

theorem finishRequest_moves (hw : Ok w) (input : RequestInput) {init : RequestInit} (hs : ∀ s, init.signal = some s → s < w.signals.length)
    (hi : i < w.heap.owners.length) (hb : w.hasBody body = true) :
    Moves Kept (finishRequest P input init i body) w fun r w' => RequestOk w' r := by
  refine moves_bind (ofExcept_moves hw (Q := fun source w' => ∀ k, source = .stream k → k < w'.streams.length) fun source hs =>
    source_ok hb hs) fun source w1 h1 hsource => ?_
  have hsig : ∀ s, init.signal = some s → s < w1.signals.length := fun s hs' => (hs s hs').trans_le h1.signals
  refine moves_bind (takeInput_moves h1.ok input (hi.trans_le h1.headers) hsig) fun t w2 h2 ht => ?_
  refine moves_throwIf_bind (Kept.refl h2.ok) fun _ => ?_
  refine moves_bind (followSignal_moves h2.ok ht.signal) fun s w3 h3 hs => moves_ok rfl (Kept.refl h3.ok) ?_
  have h13 := h2.trans h3
  exact ⟨⟨fun k hk => (hsource k hk).trans_le h13.streams, fun k hk => (ht.stream k hk).trans_le h3.streams⟩, ht.headers.trans_le h3.headers, hs⟩

theorem newRequest_moves (hw : Ok w) (input : RequestInput) {init : RequestInit} (hi : w.hasInit init = true) :
    Moves Kept (newRequest P input init) w fun r w' => RequestOk w' r := by
  rw [World.hasInit, Bool.and_eq_true, Bool.and_eq_true] at hi
  obtain ⟨⟨hheaders, hbody⟩, hsignal⟩ := hi
  refine moves_bind (initBody_moves hw input hbody) fun body w1 h1 hb => ?_
  refine moves_bind (initHeaders_moves h1.ok input (hasHeaders_kept hheaders h1)) fun i w2 h2 hlt => ?_
  have hguard : Moves Kept (setGuard i (getDefaultRequestHeaderGuard P)) w2 fun _ w' => i < w'.heap.owners.length :=
    moves_ok rfl (setGuard_kept h2.ok _ _) hlt
  refine moves_bind hguard fun _ w3 h3 hlt => ?_
  refine moves_bind (extractBody_moves h3.ok hlt (hasBody_kept hb (h2.trans h3))) fun body w4 h4 hb => ?_
  have h14 := h1.trans ((h2.trans h3).trans h4)
  refine finishRequest_moves h4.ok input (fun s hs => ?_) (hlt.trans_le h4.headers) hb
  rw [hs] at hsignal
  exact (of_decide_eq_true hsignal).trans_le h14.signals

/-! ## `fetch` -/

theorem map_some_moves {x : Script Response} (hx : Moves Kept x w fun p w' => ResponseOk w' p) :
    Moves Kept (some <$> x) w fun o w' => ∀ p, o = some p → ResponseOk w' p := by
  rw [map_eq_pure_bind]
  refine moves_bind hx fun p w' h hp => moves_ok rfl (Kept.refl h.ok) ?_
  rintro q ⟨⟩
  exact hp

theorem networkError_moves (hw : Ok w) {init : ResponseInit} (hi : w.hasHeaders init.headers = true) :
    Moves Kept (networkError P init) w fun p w' => ResponseOk w' p := newResponse_moves hw rfl hi

theorem parseUrl_moves (hw : Ok w) (url : Text) (base : Option Text) : Moves Kept (parseUrl P url base) w fun _ _ => True := by
  unfold parseUrl
  split
  · exact moves_error rfl (Kept.refl hw)
  · exact moves_ok rfl (Kept.refl hw) trivial

theorem responseBody_moves (hw : Ok w) (body : Option (Except JsError Bytes)) : Moves Kept (responseBody body) w fun b w' => w'.hasBody b = true := by
  cases body with
  | none => exact moves_ok rfl (Kept.refl hw) rfl
  | some contents => exact moves_bind (newStream_moves hw contents) fun k w1 h1 hk => moves_ok rfl (Kept.refl h1.ok) (decide_eq_true hk)

theorem fetchLoop_moves (hw : Ok w) (redirect : Redirect) (rem : Nat) (url : Text) (redirected : Bool) {init : ResponseInit}
    (hi : ∀ w : World, w.hasHeaders init.headers = true) (answers : List FetchResponse) :
    Moves Kept (fetchLoop P redirect rem url redirected init answers) w fun o w' => ∀ p, o = some p → ResponseOk w' p := by
  induction rem generalizing w url redirected init answers with
  | zero => exact map_some_moves (networkError_moves hw (hi w))
  | succ rem ih =>
    unfold fetchLoop
    refine moves_bind (parseUrl_moves hw url none) fun _ w1 h1 _ => moves_throwIf_bind (Kept.refl h1.ok) fun _ => ?_
    cases answers with
    | nil => exact moves_ok rfl (Kept.refl h1.ok) fun _ h => nomatch h
    | cons answer answers =>
      refine moves_bind (responseBody_moves h1.ok answer.body) fun body w2 h2 hb => ?_
      refine moves_bind (newResponse_moves h2.ok hb rfl) fun p w3 h3 hp => ?_
      have hdone : Moves Kept (pure (some p) : Script (Option Response)) w3 fun o w' => ∀ p, o = some p → ResponseOk w' p := by
        refine moves_ok rfl (Kept.refl h3.ok) ?_
        rintro q ⟨⟩
        exact hp
      split
      · cases redirect with
        | error => exact map_some_moves (networkError_moves h3.ok rfl)
        | manual => exact hdone
        | follow =>
          refine moves_get_bind ?_
          split
          · exact hdone
          · next location _ =>
            have hurl : Moves Kept (redirectTo P location url) w3 fun _ _ => True := by
              unfold redirectTo
              split
              · exact moves_ok rfl (Kept.refl h3.ok) trivial
              · exact moves_bind (parseUrl_moves h3.ok location (some url)) fun _ _ h4 _ => moves_ok rfl (Kept.refl h4.ok) trivial
            exact moves_bind hurl fun next w4 h4 _ => ih h4.ok next true (fun _ => rfl) answers
      · exact hdone

theorem fetch_moves (hw : Ok w) (input : RequestInput) {init : RequestInit} (hi : w.hasInit init = true) (redirect : Redirect)
    (answers : List FetchResponse) : Moves Kept (fetch P input init redirect answers) w fun o w' => ∀ p, o = some p → ResponseOk w' p := by
  refine moves_bind (newRequest_moves hw input hi) fun r w1 h1 hr => ?_
  refine moves_bind (getBody_moves h1.ok hr.body) fun _ w2 h2 _ => moves_get_bind (moves_throwIf_bind (Kept.refl h2.ok) fun _ => ?_)
  exact fetchLoop_moves h2.ok redirect 20 _ false (fun _ => rfl) answers

/-! ## Runs -/

theorem headers_kept (hw : Ok w) {op : Op} {s : State} (hs : w.objects.step op = some s) : Kept w { w with objects := s } := by
  have hlists := (step_lists hw.objects.separated op).1
  rw [hs, map_some] at hlists
  have hdeep : w.objects.lists.step op = some s.lists := hlists.symm
  have hsep := (step_lists hw.objects.separated op).2 s hs
  have hok : ∀ data ∈ s.heap.view, HeadersOk data := Deep.step_ok (d := w.objects.lists) hw.objects.lists hdeep
  have hguards : w.objects.guards.length = w.objects.heap.view.length := hw.objects.guards.trans (view_length _).symm
  have hlen : s.guards.length = s.heap.view.length ∧ w.objects.heap.view.length ≤ s.heap.view.length := by
    rcases Deep.step_cases hdeep with ⟨data, hl, hg, -⟩ | ⟨i, c, data, guard, data', -, -, -, hl, hg⟩ | ⟨hl, hg⟩
    · have hl : s.heap.view = w.objects.heap.view ++ [data] := hl
      have hg : s.guards = w.objects.guards ++ [.none] := hg
      rw [hl, hg, length_append, length_append, hguards]
      exact ⟨rfl, Nat.le_add_right _ _⟩
    · have hl : s.heap.view = w.objects.heap.view.set i data' := hl
      have hg : s.guards = w.objects.guards := hg
      rw [hl, hg, length_set]
      exact ⟨hguards, Nat.le_refl _⟩
    · have hl : s.heap.view = w.objects.heap.view := hl
      rw [hl]
      exact ⟨(show s.guards.length = w.objects.guards.length from hg).trans hguards, Nat.le_refl _⟩
  rw [view_length, view_length] at hlen
  exact hw.moved ⟨hsep, hlen.1, hok⟩ hw.signals rfl rfl hlen.2 (Nat.le_refl _) (Nat.le_refl _)

theorem addRequest_ok {x : Except Thrown Request × World} (hw : Ok x.2) (hx : ∀ r, x.1 = .ok r → RequestOk x.2 r) : Ok (World.addRequest x) := by
  obtain ⟨r, w⟩ := x
  cases r with
  | error e => exact hw
  | ok r => exact (hw.stored (forall_mem_append.mpr ⟨hw.requests, forall_mem_singleton.mpr (hx r rfl)⟩) hw.responses).ok

theorem addResponse_ok {x : Except Thrown (Option Response) × World} (hw : Ok x.2) (hx : ∀ o, x.1 = .ok o → ∀ p, o = some p → ResponseOk x.2 p) :
    Ok (World.addResponse x) := by
  obtain ⟨o, w⟩ := x
  cases o with
  | error e => exact hw
  | ok o =>
    cases o with
    | none => exact hw
    | some p => exact (hw.stored hw.requests (forall_mem_append.mpr ⟨hw.responses, forall_mem_singleton.mpr (hx _ rfl p rfl)⟩)).ok

theorem signals_kept (hw : Ok w) {e : Dom.Signal.Event} {l : Signals} (hl : Dom.Signal.step w.signals e = some l) : Kept w { w with signals := l } :=
  hw.moved hw.objects (step_spec hw.signals hl).1 rfl rfl (Nat.le_refl _) (Nat.le_refl _) (step_length hl)

theorem onStream_ok (hw : Ok w) (k : Nat) (f : Stream → Stream) : Ok (w.onStream k f) := by
  have hkept : Kept w (w.onStream k f) :=
    hw.moved hw.objects hw.signals rfl rfl (Nat.le_refl _) (length_modify ..).symm.le (Nat.le_refl _)
  exact hkept.ok

theorem step_ok {e : Event} (hw : Ok w) (hs : w.step P e = some w') : Ok w' := by
  cases e with
  | headers op =>
    obtain ⟨s, hop, rfl⟩ := map_eq_some_iff.mp hs
    exact (headers_kept hw hop).ok
  | controller =>
    cases hs
    exact (signals_kept hw (e := .controller) rfl).ok
  | abort s =>
    obtain ⟨l, hl, rfl⟩ := map_eq_some_iff.mp hs
    exact (signals_kept hw hl).ok
  | stream contents =>
    cases hs
    exact (newStream_moves hw contents).moved.ok
  | getReader k | read k n | releaseLock k | cancel k =>
    cases hs
    exact onStream_ok hw k _
  | request input init =>
    simp only [World.step, ite_none_right_eq_some, Bool.and_eq_true] at hs
    obtain ⟨⟨-, hi⟩, hs⟩ := hs
    cases hs
    have hm := newRequest_moves (P := P) hw input hi
    exact addRequest_ok hm.moved.ok hm.value
  | response body init =>
    simp only [World.step, ite_none_right_eq_some, Bool.and_eq_true] at hs
    obtain ⟨⟨hb, hi⟩, hs⟩ := hs
    cases hs
    have hm := map_some_moves (newResponse_moves (P := P) hw hb hi)
    exact addResponse_ok hm.moved.ok hm.value
  | fetch input init redirect answers =>
    simp only [World.step, ite_none_right_eq_some, Bool.and_eq_true] at hs
    obtain ⟨⟨-, hi⟩, hs⟩ := hs
    cases hs
    have hm := fetch_moves (P := P) hw input hi redirect answers
    exact addResponse_ok hm.moved.ok hm.value
  | clone k =>
    simp only [World.step, ite_none_right_eq_some] at hs
    obtain ⟨-, hs⟩ := hs
    cases hs
    have hm := map_some_moves (clone_moves (P := P) hw k)
    exact addResponse_ok hm.moved.ok hm.value

theorem start_ok : Ok {} :=
  ⟨⟨empty_separated, rfl, fun _ h => (nomatch h)⟩, sound_nil, fun _ h => (nomatch h), fun _ h => (nomatch h)⟩

theorem ok_of_run {events : List Event} (hr : run (World.step P) {} events = some w) : Ok w :=
  run_inv (fun _ _ _ hw _ hs => step_ok hw hs) start_ok (along_true _ _) hr

end Aworker.Fetch.Shared
