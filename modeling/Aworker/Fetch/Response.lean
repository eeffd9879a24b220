/-
  Aworker.Fetch.Response — what the constructor of `Response` lets through (lib/fetch/body.js).

  A response of type `basic` should have no `set-cookie` and no `set-cookie2` header, one of type
  `cors` only the seven safelisted names. The constructor deletes the others from the object that
  it was given, or has made, while it iterates over it.

  - `newResponse_ok`: the constructor as a chain of its parts.
  - `filtered_response_iff`: nothing that should be filtered is left exactly if the object has a
    guard that refuses none of the deletions, and its array is shared or the iterator comes to
    an entry of each such name.
  - `neighbour_left`: of two neighbours that should both go, one is left.
-/

import Mathlib
import Aworker.Fetch.WorldOk

namespace Aworker.Fetch.Shared

open Aworker.Lib Aworker.Lib.CopyOnWrite

variable {P : Platform} {w w' : World} {body : BodyInit} {init : ResponseInit} {p : Response}

/-! ## The constructor -/

def responseType (P : Platform) (init : ResponseInit) : ResponseType := init.extra.type.getD (getDefaultResponseType P)

def draft (body : BodyInit) (init : ResponseInit) (headers : Nat) : Draft :=
  { url := init.extra.url, status := init.status.value, statusText := init.statusText.getD [], headers := headers, body := body }

def outOfRange (init : ResponseInit) : Prop := init.status ≠ .undefined ∧ (init.status.value.ltInt 200 ∨ init.status.value.gtInt 599)

def nullBody (body : BodyInit) (init : ResponseInit) : Prop := body.truthy ∧ nullBodyStatus.any init.status.value.eqInt

def built (P : Platform) (init : ResponseInit) (d : Draft) (source : Source) : Response :=
  { bodySource := source, headers := d.headers, url := d.url, status := (init.extra.status.getD .nan).or d.status, statusText := d.statusText,
    redirected := init.extra.redirected, type := responseType P init }

theorem newResponse_ok : exec (newResponse P body init) w = (.ok p, w') ↔ ∃ i w1 d w2 source, exec (chosenHeaders init.headers) w = (.ok i, w1) ∧
    ¬outOfRange init ∧ ¬nullBody body init ∧ exec (applyType (responseType P init) (draft body init i)) w1 = (.ok d, w2) ∧
    d.body.source "Response".toList = .ok source ∧ w' = (exec (setGuard d.headers (getDefaultResponseHeaderGuard P)) w2).2 ∧
    p = built P init d source := by
  constructor
  · intro h
    obtain ⟨i, w1, hheaders, hrest⟩ := exec_bind_eq_ok.mp h
    rw [exec_throwIf_bind, exec_throwIf_bind] at hrest
    split at hrest
    · cases hrest
    · next hrange =>
      split at hrest
      · cases hrest
      · next hnull =>
        obtain ⟨d, w2, htype, hafter⟩ := exec_bind_eq_ok.mp hrest
        obtain ⟨_, w3, hguard, hbody⟩ := exec_bind_eq_ok.mp hafter
        obtain ⟨source, w4, hsource, hend⟩ := exec_bind_eq_ok.mp hbody
        rw [exec_ofExcept] at hsource
        cases hguard
        cases hend
        exact ⟨i, w1, d, w2, source, hheaders, hrange, hnull, htype, congrArg Prod.fst hsource, (congrArg Prod.snd hsource).symm, rfl⟩
  · rintro ⟨i, w1, d, w2, source, hheaders, hrange, hnull, htype, hsource, rfl, rfl⟩
    have hguard : exec (setGuard d.headers (getDefaultResponseHeaderGuard P)) w2 = (.ok (), (exec (setGuard d.headers (getDefaultResponseHeaderGuard P)) w2).2) := rfl
    unfold outOfRange at hrange
    unfold nullBody at hnull
    rw [newResponse, exec_bind_ok hheaders, exec_throwIf_bind, if_neg hrange, exec_throwIf_bind, if_neg hnull]
    exact (exec_bind_ok htype).trans ((exec_bind_ok hguard).trans (by rw [hsource]; rfl))

/-! ## The filter -/

variable {type : ResponseType}

theorem applyType_filter (ht : type = .basic ∨ type = .cors) (d : Draft) :
    applyType type d = (do writeHeaders d.headers (filterHeaders (dropped type)); pure d) := by
  rcases ht with rfl | rfl <;> rfl

theorem dropped_other (ht : ¬(type = .basic ∨ type = .cors)) (name : Text) : dropped type name = false := by
  cases type with
  | basic => exact absurd (Or.inl rfl) ht
  | cors => exact absurd (Or.inr rfl) ht
  | default | error | opaqueFiltered | opaqueRedirect => rfl

theorem list_setHeap {h : Heap} {i : Nat} {l : HeaderList} (hi : i < w.heap.owners.length) (hview : h.view = w.heap.view.set i l) :
    (w.setHeap h).list i = l := by
  show h.view.getD i [] = l
  rw [hview, List.getD_eq_getElem?_getD, List.getElem?_set_self (by rw [view_length]; exact hi), Option.getD_some]

theorem applyType_filtered (ht : type = .basic ∨ type = .cors) (ho : ObjectsOk w.objects) {d d' : Draft} (hd : d.headers < w.heap.owners.length)
    (h : exec (applyType type d) w = (.ok d', w')) : d' = d ∧
      filtered (dropped type) (w.guard d.headers) (w.unique d.headers) (w.list d.headers) = .ok (w'.list d.headers) := by
  rw [applyType_filter ht] at h
  obtain ⟨_, w1, hwrite, h⟩ := exec_bind_eq_ok.mp h
  cases h
  obtain ⟨a, ha, hm⟩ := filterHeaders_ok ho (dropped type) hd
  rcases writeHeaders_exec hm with ⟨h, l, he, hl, -, hview⟩ | ⟨e, he, -⟩
  · rw [he] at hwrite
    cases hwrite
    exact ⟨rfl, hl.trans (congrArg Except.ok (list_setHeap hd hview).symm)⟩
  · rw [he] at hwrite
    cases hwrite

theorem filtered_response_iff {events : List Event} (hr : run (World.step P) {} events = some w) (hi : w.hasHeaders init.headers = true)
    (hnew : exec (newResponse P body init) w = (.ok p, w')) :
    (∀ e ∈ w'.list p.headers, dropped p.type e.1 = false) ↔ ∃ i w1, exec (chosenHeaders init.headers) w = (.ok i, w1) ∧
      Clean (dropped p.type) (w1.guard i) (w1.unique i) (w1.list i) := by
  obtain ⟨i, w1, d, w2, source, hheaders, -, -, htype, -, rfl, rfl⟩ := newResponse_ok.mp hnew
  obtain ⟨hkept, hlt⟩ := (chosenHeaders_moves (ok_of_run hr) hi).of_ok hheaders
  -- the object is the same one whichever way it was chosen
  have hchosen : (∃ j w3, exec (chosenHeaders init.headers) w = (.ok j, w3) ∧
      Clean (dropped (responseType P init)) (w3.guard j) (w3.unique j) (w3.list j)) ↔
      Clean (dropped (responseType P init)) (w1.guard i) (w1.unique i) (w1.list i) := by
    constructor
    · rintro ⟨j, w3, hj, hclean⟩
      rw [hheaders] at hj
      cases hj
      exact hclean
    · exact fun hclean => ⟨i, w1, hheaders, hclean⟩
  show (∀ e ∈ w2.list d.headers, dropped (responseType P init) e.1 = false) ↔ _
  rw [show (built P init d source).type = responseType P init from rfl, hchosen]
  by_cases ht : responseType P init = .basic ∨ responseType P init = .cors
  · obtain ⟨rfl, hfiltered⟩ := applyType_filtered ht hkept.ok.objects hlt htype
    exact filtered_clean_iff hfiltered
  · have hno := dropped_other ht
    exact ⟨fun _ => ⟨fun e _ hd => absurd (hno e.1 ▸ hd) Bool.false_ne_true, fun _ e _ hd => absurd (hno e.1 ▸ hd) Bool.false_ne_true⟩, fun _ e _ => hno e.1⟩

/-- A worker without a location, for urls that are their own text. -/
def plainPlatform : Platform where
  url := { Url := Text, parse := fun t _ => some t, href := id, protocol := fun _ => "http:".toList, clearSearch := id, clearHash := id }
  hasLocation := false
  location := []

def cookies : HeaderList := [("set-cookie".toList, "a=1".toList), ("set-cookie2".toList, "b=2".toList)]

/-- The same pairs in an array that another object shares. -/
theorem filtered_response_shared : ∃ w p w', run (World.step plainPlatform) {} [.headers (.construct cookies), .headers (.copy 0)] = some w ∧
    exec (newResponse plainPlatform .none { headers := .object 1, extra := { type := some .basic } }) w = (.ok p, w') ∧
    ((∀ e ∈ w'.list p.headers, dropped p.type e.1 = false) ↔ ∃ i w1, exec (chosenHeaders (.object 1)) w = (.ok i, w1) ∧
      Clean (dropped p.type) (w1.guard i) (w1.unique i) (w1.list i)) ∧ w'.list p.headers = [] := by
  refine ⟨_, _, _, rfl, rfl, ?_, by decide⟩
  refine filtered_response_iff (show run (World.step plainPlatform) {} [.headers (.construct cookies), .headers (.copy 0)] = some _ from rfl) ?_
    (show exec (newResponse plainPlatform .none { headers := .object 1, extra := { type := some .basic } }) _ = (.ok _, _) from rfl)
  rfl

theorem neighbour_left :
    (∃ p w', exec (newResponse plainPlatform .none { headers := .tuples cookies, extra := { type := some .basic } }) {} = (.ok p, w') ∧
      p.type = .basic ∧ w'.list p.headers = [("set-cookie2".toList, "b=2".toList)]) ∧
    ∃ p w', exec (newResponse plainPlatform .none { headers := .tuples cookies, extra := { type := some .cors } }) {} = (.ok p, w') ∧
      p.type = .cors ∧ w'.list p.headers = [("set-cookie2".toList, "b=2".toList)] := by
  exact ⟨⟨_, _, rfl, rfl, by decide⟩, ⟨_, _, rfl, rfl, by decide⟩⟩

end Aworker.Fetch.Shared
