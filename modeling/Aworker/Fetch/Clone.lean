/-
  Aworker.Fetch.Clone — `Response.clone` (lib/fetch/body.js).

  `clone` goes through the constructor with the status of the response as `init.status` and a new
  list that is appended entry by entry. `fetch` gives its status past the checks of the
  constructor, by the private options, and so do network errors.

  - `clone_works_iff`: for every response of every world that is reached, with a body that has not
    been used, `clone` gives a response with the same url, status, text, header list and bytes and
    leaves the original readable, exactly if: the stream is not locked; the status is a number
    from 200 to 599; there is no body or the status is no null body status; every value is trimmed;
    and, in a worker with a location, there is no `set-cookie` and no `set-cookie2`.
  - `clone_throws`: a response 204 with a stream, as the curl driver gives it, and a network error.
-/

import Mathlib
import Aworker.Fetch.Response

namespace Aworker.Fetch.Shared

open Aworker.Lib Aworker.Lib.CopyOnWrite List

/-! ## The list that is built from the entries -/

/-- Every entry is appended to what is there. -/
def rebuild (acc : HeaderList) (data : HeaderList) : HeaderList := data.foldl (fun acc e => dataAppend acc e.1 (trimmed e.2)) acc

variable {data acc : HeaderList}

theorem rebuild_cons (acc : HeaderList) (e : Text × Text) (data : HeaderList) : rebuild acc (e :: data) = rebuild (dataAppend acc e.1 (trimmed e.2)) data := rfl

theorem appendAll_rebuild (acc : HeaderList) (h : HeadersOk data) : Deep.appendAll data acc = .ok (rebuild acc data) := by
  induction data generalizing acc with
  | nil => rfl
  | cons e data ih =>
    obtain ⟨hlegal, hlower⟩ := h.name e mem_cons_self
    have hc : (Change.append e.1 e.2).legal = true := by
      rw [Change.legal, hlower, hlegal, legalValue_trimmed (h.value e mem_cons_self)]
      rfl
    have hone : Deep.append e.1 e.2 acc .none = .ok (dataAppend acc e.1 (trimmed e.2)) := by
      have happly : Deep.append e.1 e.2 acc .none = _ := apply_legal hc
      rw [happly, Deep.mutate, Change.write, hlower]
      rfl
    have hrest := ih (dataAppend acc e.1 (trimmed e.2)) (h.sublist (sublist_cons_self e data))
    rw [rebuild_cons, ← hrest]
    show (Deep.append e.1 e.2 acc .none >>= fun data' => Deep.appendAll data data') = _
    rw [hone]
    rfl

theorem rebuild_length_le (acc data : HeaderList) : (rebuild acc data).length ≤ acc.length + data.length := by
  have hone : ∀ (acc : HeaderList) (k v : Text), (dataAppend acc k v).length ≤ acc.length + 1 := by
    intro acc k v
    induction acc with
    | nil => simp [dataAppend]
    | cons e acc ih =>
      rw [dataAppend]
      split
      · split
        · simp
        · simpa using ih
      · split
        · simp
        · simpa using ih
  induction data generalizing acc with
  | nil => simp [rebuild]
  | cons e data ih =>
    have := hone acc e.1 (trimmed e.2)
    have := ih (dataAppend acc e.1 (trimmed e.2))
    rw [rebuild_cons, length_cons]
    omega

/-- No value of an existing list is joined to another one, so what comes out is trimmed. -/
theorem rebuild_trimmed (hdata : data.Pairwise Apart) (hacc : ∀ x ∈ acc, trimmed x.2 = x.2) (hnew : ∀ x ∈ acc, ∀ e ∈ data, e.1 = x.1 → e.1 = setCookie) :
    ∀ x ∈ rebuild acc data, trimmed x.2 = x.2 := by
  induction data generalizing acc with
  | nil => exact hacc
  | cons e data ih =>
    obtain ⟨he, hdata⟩ := pairwise_cons.mp hdata
    have hmem : ∀ x ∈ dataAppend acc e.1 (trimmed e.2), x ∈ acc ∨ x = (e.1, trimmed e.2) := by
      intro x hx
      rcases mem_dataAppend hx with hx | hx | ⟨hne, v, hv, -⟩
      · exact Or.inl hx
      · exact Or.inr hx
      · exact absurd (hnew _ hv e mem_cons_self rfl) hne
    rw [rebuild_cons]
    refine ih hdata (fun x hx => ?_) fun x hx f hf hname => ?_
    · rcases hmem x hx with hx | rfl
      · exact hacc x hx
      · exact trim_trim _
    · rcases hmem x hx with hx | rfl
      · exact hnew x hx f (mem_cons_of_mem e hf) hname
      · exact hname.trans (he f hf hname.symm).1

theorem rebuild_stable (hok : HeadersOk (acc ++ data)) (htrim : ∀ x ∈ data, trimmed x.2 = x.2) : rebuild acc data = acc ++ data := by
  induction data generalizing acc with
  | nil => simp [rebuild]
  | cons e data ih =>
    have happend : dataAppend acc e.1 (trimmed e.2) = acc ++ [e] := by
      rw [htrim e mem_cons_self]
      exact dataAppend_new fun b hb => (pairwise_append.mp hok.distinct).2.2 b hb e mem_cons_self
    have hsame : acc ++ e :: data = (acc ++ [e]) ++ data := by simp
    rw [rebuild_cons, happend, hsame]
    exact ih (hsame ▸ hok) fun x hx => htrim x (mem_cons_of_mem e hx)

theorem rebuild_eq_iff (hok : HeadersOk data) : rebuild [] data = data ↔ ∀ e ∈ data, trimmed e.2 = e.2 := by
  constructor
  · intro h
    have htrim : ∀ x ∈ rebuild [] data, trimmed x.2 = x.2 := rebuild_trimmed hok.distinct (by simp) (by simp)
    rwa [h] at htrim
  · exact fun h => @rebuild_stable data [] hok h

/-! ## What a filter leaves alone -/

variable {drop : Text → Bool}

theorem reached_first {fuel idx : Nat} (hfuel : data.length ≤ fuel + idx) {e : Text × Text} (he : e ∈ data.drop idx)
    (hd : drop e.1 = true) : ∃ f ∈ data, drop f.1 = true ∧ f.1 ∈ reached drop fuel idx data := by
  induction fuel generalizing idx with
  | zero =>
    rw [drop_eq_nil_of_le (by omega)] at he
    cases he
  | succ fuel ih =>
    have hlt : idx < data.length := by
      by_contra hge
      rw [drop_eq_nil_of_le (by omega)] at he
      cases he
    rw [drop_eq_getElem_cons hlt] at he
    rw [reached, getElem?_eq_getElem hlt]
    dsimp only
    by_cases hhead : drop (data[idx]).1 = true
    · exact ⟨data[idx], getElem_mem hlt, hhead, mem_cons_self⟩
    · have hrest : e ∈ data.drop (idx + 1) := by
        rcases mem_cons.mp he with rfl | he
        · exact absurd hd hhead
        · exact he
      obtain ⟨f, hf, hfd, hreach⟩ := ih (by omega) hrest
      rw [if_neg hhead]
      exact ⟨f, hf, hfd, mem_cons_of_mem _ hreach⟩

theorem filtered_unguarded (drop : Text → Bool) (u : Bool) (data : HeaderList) :
    filtered drop .none u data = .ok (if u then strip drop data.length 0 data else data.filter fun e => !drop e.1) := by
  have hdel : ∀ name, deletes drop .none name = drop name := fun name => by simp [deletes, refusesDelete]
  have hguard : ¬(Guard.none = .immutable ∧ data.any (fun e => drop e.1) = true) := fun h => by cases h.1
  rw [filtered, if_neg hguard, funext hdel]
  cases u with
  | true => rfl
  | false => rfl

variable {u : Bool} {left : HeaderList}

theorem filtered_eq_self_iff (h : filtered drop .none u data = .ok left) :
    left = data ↔ ∀ e ∈ data, drop e.1 = false := by
  rw [filtered_unguarded] at h
  cases h
  split
  · rw [strip_eq, filter_eq_self]
    constructor
    · intro hall e he
      by_contra hd
      obtain ⟨f, hf, hfd, hreach⟩ := reached_first (Nat.le_refl (data.length + 0)) he (Bool.eq_true_of_not_eq_false hd)
      have hkept := hall f hf
      rw [hfd, contains_iff_mem.mpr hreach] at hkept
      cases hkept
    · intro hall e he
      rw [hall e he]
      rfl
  · rw [filter_eq_self]
    simp

/-! ## Frames -/

variable {P : Platform} {w w' : World} {k : Nat} {p : Response}

/-- The streams and the responses stay as they are. -/
structure Frame (w w' : World) : Prop where
  streams : w'.streams = w.streams
  responses : w'.responses = w.responses

instance : IsTrans World Frame := ⟨fun _ _ _ h h' => ⟨h'.streams.trans h.streams, h'.responses.trans h.responses⟩⟩

theorem Frame.refl (w : World) : Frame w w := ⟨rfl, rfl⟩

theorem onHeap_frame (f : Heap → Except JsError Heap) (w : World) : Moves Frame (onHeap f) w fun _ _ => True := by
  cases hf : f w.heap with
  | error e => exact moves_error (onHeap_error hf) (Frame.refl w)
  | ok h => exact moves_ok (onHeap_ok hf) ⟨rfl, rfl⟩ trivial

theorem newHeaders_frame (l : HeaderList) (w : World) : Moves Frame (newHeaders l) w fun _ _ => True := by
  refine moves_get_bind (moves_bind (onHeap_frame _ w) fun _ w1 _ _ => ?_)
  refine moves_bind (Q := fun _ _ => True) (moves_ok rfl ⟨rfl, rfl⟩ trivial) fun _ w2 _ _ => moves_ok rfl (Frame.refl w2) trivial

theorem applyType_frame (type : ResponseType) (d : Draft) (w : World) : Moves Frame (applyType type d) w fun _ _ => True := by
  have hfresh : ∀ f : Nat → Draft, Moves Frame (newHeaders [] >>= fun n => pure (f n) : Script Draft) w fun _ _ => True :=
    fun f => moves_bind (newHeaders_frame [] w) fun _ w1 _ _ => moves_ok rfl (Frame.refl w1) trivial
  have hfilter : Moves Frame (writeHeaders d.headers (filterHeaders (dropped type)) >>= fun _ => pure d : Script Draft) w fun _ _ => True :=
    moves_bind (moves_get_bind (onHeap_frame _ w)) fun _ w1 _ _ => moves_ok rfl (Frame.refl w1) trivial
  cases type with
  | default => exact moves_ok rfl (Frame.refl w) trivial
  | basic | cors => exact hfilter
  | error | opaqueFiltered | opaqueRedirect => exact hfresh _

variable {init : ResponseInit}

theorem newResponse_frame {body : BodyInit} {i : Nat} (hi : init.headers = .object i) (w : World) :
    Moves Frame (newResponse P body init) w fun _ _ => True := by
  have hchosen : exec (chosenHeaders init.headers) w = (.ok i, w) := by rw [hi]; rfl
  refine moves_bind (Q := fun _ _ => True) (moves_ok hchosen (Frame.refl w) trivial) fun _ w1 _ _ => ?_
  refine moves_throwIf_bind (Frame.refl w1) fun _ => moves_throwIf_bind (Frame.refl w1) fun _ => ?_
  refine moves_bind (applyType_frame _ _ w1) fun d w2 _ _ => ?_
  refine moves_bind (Q := fun _ _ => True) (moves_ok rfl ⟨rfl, rfl⟩ trivial) fun _ w3 _ _ => ?_
  cases hs : d.body.source "Response".toList with
  | error e => exact moves_error (exec_bind_error (exec_ofExcept _ _)) (Frame.refl w3)
  | ok source => exact moves_ok rfl (Frame.refl w3) trivial

/-! ## The body -/

theorem read_congr {source : Source} (h : ∀ j, source = .stream j → w'.getStream j = w.getStream j) : w'.read source = w.read source := by
  cases source with
  | stream j => rw [World.read, World.read, h j rfl]
  | null | string _ | buffer _ => rfl

variable {j : Nat}

theorem getStream_append {more : List Stream} (hs : w'.streams = w.streams ++ more) (hj : j < w.streams.length) : w'.getStream j = w.getStream j := by
  rw [World.getStream, World.getStream, hs, getD_append _ _ _ _ hj]

/-- `get body()` opens a stream at most, and keeps the source. -/
theorem getBody_exec (b : Body) (w : World) :
    ∃ b' o more, exec (getBody b) w = (.ok (b', o), { w with streams := w.streams ++ more }) ∧ b'.bodySource = b.bodySource := by
  have hstay : ∀ (b' : Body) (o : Option Nat), b'.bodySource = b.bodySource → ∃ b'' o' more,
      exec (pure (b', o) : Script (Body × Option Nat)) w = (.ok (b'', o'), { w with streams := w.streams ++ more }) ∧ b''.bodySource = b.bodySource :=
    fun b' o hb => ⟨b', o, [], by simp, hb⟩
  unfold getBody
  split
  · exact hstay _ _ rfl
  · exact hstay _ _ rfl
  · exact hstay _ _ rfl
  · exact hstay _ _ rfl
  · exact ⟨_, _, [{ contents := _ }], rfl, rfl⟩
  · exact ⟨_, _, [{ contents := _ }], rfl, rfl⟩

/-- The world once `bodyUsed` has been asked for. -/
def World.opened (w : World) (k : Nat) (p : Response) (more : List Stream) : World :=
  { w with streams := w.streams ++ more, responses := w.responses.set k p }

theorem responseUsed_exec (hp : w.responses[k]? = some p) :
    ∃ b used more, exec (responseUsed k) w = (.ok used, w.opened k (p.withBody b) more) ∧ b.bodySource = p.bodySource := by
  obtain ⟨b, o, more, hbody, hsource⟩ := getBody_exec p.toBody w
  refine ⟨b, o.elim false fun k => (World.getStream { w with streams := w.streams ++ more } k).disturbed, more, ?_, hsource⟩
  have hget : exec (getResponse k) w = (.ok p, w) := by
    rw [getResponse, exec_bind_ok (exec_get w), hp]
    rfl
  have hused : exec (bodyUsed p.toBody) w = (.ok (b, o.elim false fun k => (World.getStream { w with streams := w.streams ++ more } k).disturbed),
      { w with streams := w.streams ++ more }) := by
    rw [bodyUsed, exec_bind_ok hbody]
    rfl
  rw [responseUsed, exec_bind_ok hget, exec_bind_ok hused]
  rfl

/-- What `clone` has before it makes the new list: the body for the new response, and the original with what it reads from. -/
structure Teed (w w' : World) (k : Nat) (p : Response) (resBody : BodyInit) : Prop where
  objects : w'.objects = w.objects
  truthy : resBody.truthy = p.bodySource.toInit.truthy
  source : ∃ source, resBody.source "Response".toList = .ok source ∧ w'.read source = w.read p.bodySource
  original : ∃ p', w'.responses[k]? = some p' ∧ w'.read p'.bodySource = w.read p.bodySource

/-- The world after `tee`: the old stream is locked, its two branches are the last streams. -/
def World.teed (w : World) (j : Nat) : World :=
  { w with streams := w.streams.set j { w.getStream j with locked := true } ++ [{ contents := (w.getStream j).contents }, { contents := (w.getStream j).contents }] }

theorem tee_exec (hl : (w.getStream j).locked = false) : exec (tee j) w = (.ok (w.streams.length, w.streams.length + 1), w.teed j) := by
  have hno : ¬(w.getStream j).locked = true := Bool.eq_false_iff.mp hl
  rw [tee, exec_bind_ok (exec_get w), exec_throwIf_bind, if_neg hno, exec_bind_ok (exec_modify _ w)]
  show exec _ _ = _
  simp only [newStream, exec_bind, exec_get, exec_modify, exec_pure, World.teed]
  simp

theorem teed_getStream (w : World) (j : Nat) {n : Nat} (hn : n = w.streams.length ∨ n = w.streams.length + 1) :
    (w.teed j).getStream n = { contents := (w.getStream j).contents } := by
  have hlen : (w.streams.set j { w.getStream j with locked := true }).length = w.streams.length := length_set ..
  rw [World.getStream, World.teed, getD_eq_getElem?_getD, getElem?_append_right (by omega), hlen]
  rcases hn with rfl | rfl
  · simp
  · simp

theorem teeBody_locked (hs : p.bodySource = .stream j) (hl : (w.getStream j).locked = true) :
    exec (teeBody k p) w = (.error (typeErr "stream is locked."), w) := by
  have htee : exec (tee j) w = (.error (typeErr "stream is locked."), w) := by
    rw [tee, exec_bind_ok (exec_get w), exec_throwIf_bind, if_pos hl]
  rw [teeBody, hs]
  exact exec_bind_error htee

theorem teeBody_teed (hp : w.responses[k]? = some p)
    (hl : ∀ j, p.bodySource = .stream j → (w.getStream j).locked = false) :
    ∃ resBody w', exec (teeBody k p) w = (.ok resBody, w') ∧ Teed w w' k p resBody := by
  have hk : k < w.responses.length := (List.getElem?_eq_some_iff.mp hp).1
  cases hs : p.bodySource with
  | stream j =>
    have hread : w.read (.stream j) = (w.getStream j).contents := by rw [World.read, hl j hs, if_neg Bool.false_ne_true]
    have hbranch : ∀ n, n = w.streams.length ∨ n = w.streams.length + 1 → ∀ w' : World, w'.streams = (w.teed j).streams → w'.read (.stream n) = w.read (.stream j) := by
      intro n hn w' hw'
      have hget : w'.getStream n = (w.teed j).getStream n := by rw [World.getStream, World.getStream, hw']
      rw [hread, World.read, hget, teed_getStream w j hn]
      rfl
    refine ⟨.stream (w.streams.length + 1), (exec (setResponse k (p.withBody { bodySource := .stream w.streams.length, stream := some w.streams.length })) (w.teed j)).2,
      ?_, rfl, by rw [hs]; rfl, ⟨_, rfl, ?_⟩, ⟨p.withBody { bodySource := .stream w.streams.length, stream := some w.streams.length }, ?_, ?_⟩⟩
    · rw [teeBody, hs]
      exact (exec_bind_ok (tee_exec (hl j hs))).trans rfl
    · rw [hs]
      exact hbranch _ (Or.inr rfl) _ rfl
    · exact getElem?_set_self hk
    · rw [hs]
      exact hbranch _ (Or.inl rfl) _ rfl
  | null | string _ | buffer _ =>
    refine ⟨p.bodySource.toInit, w, ?_, rfl, rfl, ⟨p.bodySource, ?_, rfl⟩, ⟨p, hp, rfl⟩⟩
    · rw [teeBody, hs]
      rfl
    · rw [hs]
      rfl

/-! ## The status -/

variable {s : Num}

/-- What the constructor accepts of a number: `0` and `NaN` count as `0`. -/
theorem status_accepted_iff (hs : init.status = .number s) :
    ¬outOfRange init ↔ ∃ x, s = .finite x ∧ x.ltInt 200 = false ∧ x.gtInt 599 = false := by
  rw [outOfRange, hs]
  cases s with
  | nan => simp [StatusArg.value, Num.or, Num.ofInt, Num.ltInt, JsNumber.ofInt_ltInt]
  | infinite negative => cases negative <;> simp [StatusArg.value, Num.or, Num.eqInt, Num.ltInt, Num.gtInt]
  | finite x =>
    by_cases h0 : x.eqInt 0 = true
    · have hlt : x.ltInt 200 = true := by
        rw [JsNumber.eqInt, beq_iff_eq, zero_mul] at h0
        have := x.pow_pos
        rw [JsNumber.ltInt, h0]
        exact decide_eq_true (by omega)
      simp [StatusArg.value, Num.or, Num.eqInt, h0, Num.ofInt, Num.ltInt, JsNumber.ofInt_ltInt, hlt]
    · simp [StatusArg.value, Num.or, Num.eqInt, h0, Num.ltInt, Num.gtInt]

theorem value_of_accepted (hs : init.status = .number s) (h : ¬outOfRange init) : init.status.value = s := by
  obtain ⟨x, rfl, hlow, -⟩ := (status_accepted_iff hs).mp h
  have h0 : ¬x.eqInt 0 = true := by
    intro h0
    rw [JsNumber.eqInt, beq_iff_eq, zero_mul] at h0
    have := x.pow_pos
    rw [JsNumber.ltInt, h0, decide_eq_false_iff_not] at hlow
    omega
  rw [hs, StatusArg.value, Num.or, if_neg (by simpa [Num.eqInt] using h0)]

/-! ## `clone` -/

/-- `clone` gives what it should. -/
def Cloned (P : Platform) (w : World) (k : Nat) (p : Response) : Prop :=
  ∃ q w', exec (clone P k) w = (.ok q, w') ∧ q.url = p.url ∧ q.status = p.status ∧ q.statusText = p.statusText ∧
    w'.list q.headers = w.list p.headers ∧ w'.read q.bodySource = w.read p.bodySource ∧
    ∃ p', w'.responses[k]? = some p' ∧ w'.read p'.bodySource = w.read p.bodySource

structure Cloneable (P : Platform) (w : World) (p : Response) : Prop where
  unlocked : ∀ j, p.bodySource = .stream j → (w.getStream j).locked = false
  status : ∃ x, p.status = .finite x ∧ x.ltInt 200 = false ∧ x.gtInt 599 = false
  nullBody : p.bodySource.toInit.truthy = true → nullBodyStatus.any p.status.eqInt = false
  values : ∀ e ∈ w.list p.headers, trimmed e.2 = e.2
  cookies : P.hasLocation = true → ∀ e ∈ w.list p.headers, forbiddenResponseHeaders.contains e.1 = false

def cloneInit (p : Response) (headers : Nat) : ResponseInit :=
  { status := .number p.status, statusText := some p.statusText, headers := .object headers, extra := { url := p.url } }

/-- What the default type leaves of a list. -/
def Leaves (P : Platform) (u : Bool) (l left : HeaderList) : Prop :=
  if P.hasLocation then filtered (dropped .basic) .none u l = .ok left else left = l

theorem leaves_rebuilt_iff (hok : HeadersOk data) (h : Leaves P u (rebuild [] data) left) :
    left = data ↔ (∀ e ∈ data, trimmed e.2 = e.2) ∧ (P.hasLocation = true → ∀ e ∈ data, forbiddenResponseHeaders.contains e.1 = false) := by
  unfold Leaves at h
  split at h
  · next hloc =>
    have hself := filtered_eq_self_iff h
    constructor
    · rintro rfl
      -- nothing can have been lost on the way
      have hall : left = rebuild [] left := (filtered_sublist h).eq_of_length_le (by simpa using rebuild_length_le [] left)
      refine ⟨(rebuild_eq_iff hok).mp hall.symm, fun _ e he => ?_⟩
      exact hself.mp hall e (hall ▸ he)
    · rintro ⟨htrim, hcookies⟩
      have hsame := (rebuild_eq_iff hok).mpr htrim
      rw [hsame] at hself
      exact hself.mpr (hcookies hloc)
  · next hloc =>
    rw [h, rebuild_eq_iff hok]
    exact ⟨fun htrim => ⟨htrim, fun hl => absurd hl hloc⟩, And.left⟩

section

variable {i : Nat} {resBody : BodyInit} {init : ResponseInit} {source : Source} {q : Response}

theorem applyType_default (ho : ObjectsOk w.objects) (hg : w.guard i = .none) {d : Draft} (hd : d.headers = i) (hi : i < w.heap.owners.length) :
    ∃ w', exec (applyType (getDefaultResponseType P) d) w = (.ok d, w') ∧ Leaves P (w.unique i) (w.list i) (w'.list i) := by
  unfold getDefaultResponseType Leaves
  cases P.hasLocation with
  | false => exact ⟨w, rfl, rfl⟩
  | true =>
    obtain ⟨a, ha, hm⟩ := filterHeaders_ok ho (dropped .basic) hi
    rw [hg] at hm
    have hwrite := writeHeaders_exec (w := w) (i := i) (f := filterHeaders (dropped .basic)) (by rw [hg]; exact hm)
    rcases hwrite with ⟨h, l, he, hl, -, hview⟩ | ⟨e, -, he⟩
    · refine ⟨w.setHeap h, ?_, ?_⟩
      · rw [if_pos rfl, applyType_filter (Or.inl rfl), hd, exec_bind_ok he]
        rfl
      · rw [if_pos rfl, hl, list_setHeap hi hview]
    · rw [filtered_unguarded] at he
      cases he

theorem newResponse_succeeds (ho : ObjectsOk w.objects) (hi : i < w.heap.owners.length) (hg : w.guard i = .none) (hh : init.headers = .object i)
    (ht : init.extra.type = none) (hrange : ¬outOfRange init) (hnull : ¬nullBody resBody init) (hs : resBody.source "Response".toList = .ok source) :
    ∃ q w', exec (newResponse P resBody init) w = (.ok q, w') := by
  have htype : responseType P init = getDefaultResponseType P := by rw [responseType, ht]; rfl
  obtain ⟨w1, he, -⟩ := applyType_default (P := P) ho hg (d := draft resBody init i) rfl hi
  refine ⟨_, _, newResponse_ok.mpr ⟨i, w, draft resBody init i, w1, source, ?_, hrange, hnull, ?_, hs, rfl, rfl⟩⟩
  · rw [hh]
    rfl
  · rw [htype]
    exact he

theorem newResponse_result (ho : ObjectsOk w.objects) (hi : i < w.heap.owners.length) (hg : w.guard i = .none) (hh : init.headers = .object i)
    (ht : init.extra.type = none) (hs : resBody.source "Response".toList = .ok source) (h : exec (newResponse P resBody init) w = (.ok q, w')) :
    ¬outOfRange init ∧ ¬nullBody resBody init ∧ q = built P init (draft resBody init i) source ∧ Leaves P (w.unique i) (w.list i) (w'.list i) := by
  have htype : responseType P init = getDefaultResponseType P := by rw [responseType, ht]; rfl
  obtain ⟨j, w1, d, w2, source', hj, hrange, hnull, happly, hs', rfl, rfl⟩ := newResponse_ok.mp h
  rw [hh] at hj
  cases hj
  obtain ⟨w3, he, hleaves⟩ := applyType_default (P := P) ho hg (d := draft resBody init i) rfl hi
  rw [htype, he] at happly
  cases happly
  rw [show (draft resBody init i).body = resBody from rfl, hs] at hs'
  cases hs'
  exact ⟨hrange, hnull, rfl, hleaves⟩

end

theorem clone_eq (hp : w.responses[k]? = some p) (hused : (exec (responseUsed k) w).1 = .ok false) : ∃ b more, b.bodySource = p.bodySource ∧
    exec (clone P k) w = exec (teeBody k (p.withBody b) >>= fun resBody => newHeaders (w.list p.headers) >>= fun i =>
      newResponse P resBody (cloneInit p i)) (w.opened k (p.withBody b) more) := by
  obtain ⟨b, used, more, he, hb⟩ := responseUsed_exec hp
  rw [he] at hused
  cases hused
  refine ⟨b, more, hb, ?_⟩
  have hget : exec (getResponse k) (w.opened k (p.withBody b) more) = (.ok (p.withBody b), w.opened k (p.withBody b) more) := by
    have hk : k < w.responses.length := (List.getElem?_eq_some_iff.mp hp).1
    rw [getResponse, exec_bind_ok (exec_get _), show (w.opened k (p.withBody b) more).responses[k]? = some (p.withBody b) from getElem?_set_self hk]
    rfl
  rw [clone, exec_bind_ok he, exec_throwIf_bind, if_neg Bool.false_ne_true, exec_bind_ok hget, exec_bind_ok (exec_get _)]
  rfl

/-- What `clone` has when it calls the constructor. -/
structure Prepared (w w' : World) (k : Nat) (p : Response) (resBody : BodyInit) (source : Source) (i : Nat) : Prop where
  objects : ObjectsOk w'.objects
  index : i < w'.heap.owners.length
  guard : w'.guard i = .none
  list : w'.list i = rebuild [] (w.list p.headers)
  truthy : resBody.truthy = p.bodySource.toInit.truthy
  stored : resBody.source "Response".toList = .ok source
  bytes : w'.read source = w.read p.bodySource
  original : ∃ p', w'.responses[k]? = some p' ∧ w'.read p'.bodySource = w.read p.bodySource

theorem newHeaders_prepared {w1 w2 : World} {resBody : BodyInit} (ho : ObjectsOk w.objects) (hobjects : w1.objects = w.objects)
    (hread : w1.read p.bodySource = w.read p.bodySource) (ht : Teed w1 w2 k p resBody) :
    ∃ source w3 i, Prepared w w3 k p resBody source i ∧ exec (newHeaders (w.list p.headers)) w2 = (.ok i, w3) := by
  have ho2 : ObjectsOk w2.objects := ht.objects.trans hobjects ▸ ho
  have hdata := appendAll_rebuild [] (ho.headersOk p.headers)
  obtain ⟨source, hs, hsread⟩ := ht.source
  obtain ⟨p', hp', hpread⟩ := ht.original
  rcases newHeaders_exec ho2.separated (w.list p.headers) with ⟨h, l, hnew, hlist, hsep, hview⟩ | ⟨e, -, herr⟩
  · rw [hdata] at hlist
    cases hlist
    obtain ⟨ho3, hlt⟩ := ho2.add hsep hview (appendAll_headersOk Headers.empty.ok hdata)
    refine ⟨source, w2.added h, w2.heap.owners.length, ⟨ho3, hlt, ?_, ?_, ht.truthy, hs, hsread.trans hread, p', hp', hpread.trans hread⟩, hnew⟩
    · show (w2.objects.guards ++ [Guard.none]).getD w2.heap.owners.length .none = .none
      rw [show w2.heap.owners.length = w2.objects.guards.length from ho2.guards.symm]
      simp
    · show h.view.getD w2.heap.owners.length [] = _
      rw [hview, ← view_length]
      simp
  · rw [hdata] at herr
    cases herr

/-- A locked stream is not cloned; everything else comes to the constructor. -/
theorem clone_cases (hw : Ok w) (hp : w.responses[k]? = some p) (hused : (exec (responseUsed k) w).1 = .ok false) :
    ((∃ j, p.bodySource = .stream j ∧ (w.getStream j).locked = true) ∧ ∃ e w', exec (clone P k) w = (.error e, w')) ∨
      ((∀ j, p.bodySource = .stream j → (w.getStream j).locked = false) ∧ ∃ resBody source w' i, Prepared w w' k p resBody source i ∧
        exec (clone P k) w = exec (newResponse P resBody (cloneInit p i)) w') := by
  have hpok := hw.responses p (mem_of_getElem? hp)
  obtain ⟨b, more, hb, hclone⟩ := clone_eq (P := P) hp hused
  have hk : k < w.responses.length := (List.getElem?_eq_some_iff.mp hp).1
  have hp1 : (w.opened k (p.withBody b) more).responses[k]? = some (p.withBody b) := getElem?_set_self hk
  have hsource : (p.withBody b).bodySource = p.bodySource := hb
  have hold : ∀ j, p.bodySource = .stream j → (w.opened k (p.withBody b) more).getStream j = w.getStream j :=
    fun j hj => getStream_append rfl (hpok.body.source j hj)
  by_cases hl : ∃ j, p.bodySource = .stream j ∧ (w.getStream j).locked = true
  · obtain ⟨j, hj, hlocked⟩ := hl
    refine Or.inl ⟨⟨j, hj, hlocked⟩, typeErr "stream is locked.", w.opened k (p.withBody b) more, ?_⟩
    rw [← hold j hj] at hlocked
    rw [hclone, exec_bind_error (teeBody_locked (hsource.trans hj) hlocked)]
  · have hl : ∀ j, p.bodySource = .stream j → (w.getStream j).locked = false :=
      fun j hj => Bool.eq_false_of_not_eq_true fun hlocked => hl ⟨j, hj, hlocked⟩
    obtain ⟨resBody, w2, he, ht⟩ := teeBody_teed hp1 fun j hj => (congrArg Stream.locked (hold j (hsource ▸ hj))).trans (hl j (hsource ▸ hj))
    -- the source is that of `p`, whatever `bodyUsed` has opened
    have ht : Teed (w.opened k (p.withBody b) more) w2 k p resBody :=
      ⟨ht.objects, hsource ▸ ht.truthy, hsource ▸ ht.source, hsource ▸ ht.original⟩
    obtain ⟨source, w3, i, hprep, hnew⟩ := newHeaders_prepared hw.objects (show (w.opened k (p.withBody b) more).objects = w.objects from rfl) (read_congr hold) ht
    refine Or.inr ⟨hl, resBody, source, w3, i, hprep, ?_⟩
    rw [hclone, exec_bind_ok he, exec_bind_ok hnew]

theorem clone_works_iff {events : List Event} (hr : run (World.step P) {} events = some w) (hp : w.responses[k]? = some p)
    (hused : (exec (responseUsed k) w).1 = .ok false) : Cloned P w k p ↔ Cloneable P w p := by
  have hw := ok_of_run hr
  have hdata := hw.objects.headersOk p.headers
  rcases clone_cases (P := P) hw hp hused with ⟨⟨j, hj, hlocked⟩, e, w', he⟩ | ⟨hl, resBody, source, w3, i, hprep, hclone⟩
  · constructor
    · rintro ⟨q, w', hq, -⟩
      rw [he] at hq
      cases hq
    · intro hc
      rw [hc.unlocked j hj] at hlocked
      cases hlocked
  · constructor
    · rintro ⟨q, w', hq, -, -, -, hqlist, -, -⟩
      rw [hclone] at hq
      obtain ⟨hrange, hnull, rfl, hleaves⟩ := newResponse_result hprep.objects hprep.index hprep.guard rfl rfl hprep.stored hq
      have hstatus := (status_accepted_iff rfl).mp hrange
      rw [hprep.list, show w'.list i = w.list p.headers from hqlist] at hleaves
      obtain ⟨htrim, hcookies⟩ := (leaves_rebuilt_iff hdata hleaves).mp rfl
      refine ⟨hl, hstatus, fun htruthy => ?_, htrim, hcookies⟩
      rw [nullBody, value_of_accepted rfl hrange, hprep.truthy, htruthy] at hnull
      simpa using hnull
    · intro hc
      have hrange : ¬outOfRange (cloneInit p i) := (status_accepted_iff (s := p.status) rfl).mpr hc.status
      have hvalue : (cloneInit p i).status.value = p.status := value_of_accepted rfl hrange
      have hnull : ¬nullBody resBody (cloneInit p i) := by
        rw [nullBody, hvalue, hprep.truthy]
        rintro ⟨htruthy, hany⟩
        rw [hc.nullBody htruthy] at hany
        cases hany
      obtain ⟨q, w', hq⟩ := newResponse_succeeds (P := P) hprep.objects hprep.index hprep.guard rfl rfl hrange hnull hprep.stored
      obtain ⟨-, -, rfl, hleaves⟩ := newResponse_result hprep.objects hprep.index hprep.guard rfl rfl hprep.stored hq
      rw [hprep.list] at hleaves
      have hlist := (leaves_rebuilt_iff hdata hleaves).mpr ⟨hc.values, hc.cookies⟩
      obtain ⟨hframe, -⟩ := (newResponse_frame rfl w3).of_ok hq
      have hread : ∀ src, w'.read src = w3.read src := fun src => read_congr fun j _ => by rw [World.getStream, World.getStream, hframe.streams]
      obtain ⟨p', hp', hpread⟩ := hprep.original
      exact ⟨_, w', hclone.trans hq, rfl, hvalue, rfl, hlist, (hread source).trans hprep.bytes, p', hframe.responses ▸ hp', (hread _).trans hpread⟩

def textResponse : List Event := [.response (.string [104, 105]) { headers := .tuples [("A".toList, "b".toList)] }]

theorem clone_works_text : ∃ w p, run (World.step plainPlatform) {} textResponse = some w ∧ w.responses[0]? = some p ∧
    (exec (responseUsed 0) w).1 = .ok false ∧ Cloned plainPlatform w 0 p := by
  refine ⟨_, _, rfl, rfl, rfl, ?_⟩
  refine (clone_works_iff (show run (World.step plainPlatform) {} textResponse = some _ from rfl) rfl rfl).mpr ⟨?_, ⟨.ofInt 200, rfl, rfl, rfl⟩, fun _ => rfl, by decide, ?_⟩
  · exact fun j hj => nomatch hj
  · exact fun hl => nomatch hl

def fetched (redirect : Redirect) (status : Int) (body : Option (Except JsError Bytes)) : List Event :=
  [.fetch (.other "http://a/".toList) {} redirect [{ status := .ofInt status, statusText := [], headers := [], body := body }]]

theorem clone_throws :
    (∃ w, run (World.step plainPlatform) {} (fetched .follow 204 (some (.ok []))) = some w ∧ (exec (responseUsed 0) w).1 = .ok false ∧
      (exec (clone plainPlatform 0) w).1 = .error (typeErr "Response with null body status cannot have body")) ∧
    ∃ w, run (World.step plainPlatform) {} (fetched .error 302 none) = some w ∧ (exec (responseUsed 0) w).1 = .ok false ∧
      (exec (clone plainPlatform 0) w).1 = .error (.statusRange (.number (.ofInt 0))) :=
  ⟨⟨_, rfl, rfl, rfl⟩, ⟨_, rfl, rfl, rfl⟩⟩

end Aworker.Fetch.Shared
