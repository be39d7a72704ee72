/-
  LambdaLift.Proofs.Inverses
  **A TWO-WAY TABLE IS A PARTIAL BIJECTION AFTER EVERY HISTORY.**

  A table is filled pair by pair, and pairs that disagree with it are
  refused.  Its two indexes are changed one after the other, and what keeps
  them inverse is that the second is the first with its pairs turned around,
  entry by entry (`Mirrored`).  Everything else is read off from there.

  Main results:
    * `insert_ok_iff`, `insert_error_iff` — which pairs are accepted, and why
      the others are refused;
    * `Mirrored.offer`, `Mirrored.after` — a pair, and so a history, keeps the
      indexes mirrored and the pairs where they are;
    * `history_bijective` — what holds after every history.
-/
import Mathlib
import LambdaLift.Proofs.Renewal

namespace LambdaLift

namespace Bijection

variable {α β : Type} [DecidableEq α] [DecidableEq β] {t t' : Bijection α β} {a : α} {b : β}

/-! ## §1. One pair. -/

/-- A pair is accepted exactly if it agrees with the table. -/
theorem insert_ok_iff : (∃ t', insert a b t = .ok () t') ↔ t.Agrees a b := by
  refine ⟨fun ⟨t', h⟩ => ?_, fun h => ⟨_, insert_of_agrees h⟩⟩
  obtain hagrees | ⟨c, hrefuses⟩ := t.agrees_or_refuses a b
  · exact hagrees
  · cases h.symm.trans (insert_of_refuses hrefuses)

/-- A pair is refused for exactly one reason, and the table is left as it was. -/
theorem insert_error_iff {c : Conflict α β} :
    insert a b t = .error c t' ↔ t.Refuses a b c ∧ t' = t := by
  refine ⟨fun h => ?_, fun ⟨h, ht⟩ => by rw [ht, insert_of_refuses h]⟩
  obtain hagrees | ⟨c', hrefuses⟩ := t.agrees_or_refuses a b
  · cases h.symm.trans (insert_of_agrees hagrees)
  · cases h.symm.trans (insert_of_refuses hrefuses)
    exact ⟨hrefuses, rfl⟩

/-! ## §2. What a step keeps. -/

/-- The second index is the first one turned around, entry by entry. -/
def Mirrored (t : Bijection α β) : Prop := t.backward.entries = t.forward.entries.map Prod.swap

namespace Mirrored

theorem forth_iff (h : t.Mirrored) : t.forth? a = some b ↔ t.back? b = some a := by
  unfold forth? back?
  rw [OrderedMap.get?_eq_some_iff, OrderedMap.get?_eq_some_iff, h]
  simp

omit [DecidableEq α] [DecidableEq β] in
theorem size_eq (h : t.Mirrored) : t.forward.size = t.backward.size := by
  unfold OrderedMap.size
  rw [h, List.length_map]

/-- An accepted pair was there already, or it is added at the end of both indexes. -/
theorem insert_cases (h : t.Mirrored) (hinsert : insert a b t = .ok () t') :
    t' = t ∧ (a, b) ∈ t.pairs ∨ t'.Mirrored ∧ t'.pairs = t.pairs ++ [(a, b)]
      ∧ (a, b) ∉ t.pairs := by
  obtain ⟨rfl, hforth⟩ | ⟨rfl, hforth, hback⟩ := Bijection.insert_cases h.forth_iff hinsert
  · exact .inl ⟨rfl, OrderedMap.get?_eq_some_iff.1 hforth⟩
  · have hleft : (t.forward.insert a b).entries = t.forward.entries ++ [(a, b)] :=
      OrderedMap.entries_insert (OrderedMap.get?_eq_none_iff.1 hforth) b
    have hright : (t.backward.insert b a).entries = t.backward.entries ++ [(b, a)] :=
      OrderedMap.entries_insert (OrderedMap.get?_eq_none_iff.1 hback) a
    refine .inr ⟨?_, hleft, fun hmem => ?_⟩
    · unfold Mirrored
      rw [hleft, hright, h]
      simp
    · cases hforth.symm.trans (OrderedMap.get?_eq_some_iff.2 hmem)

end Mirrored

/-! ## §3. What a history leaves. -/

/-- The table after the pairs of a history were offered to it. -/
def after (t : Bijection α β) (history : List (α × β)) : Bijection α β := history.foldl offer t

/-- The pairs of a history that a table accepts as they come, repeated ones included. -/
def acceptedFrom (t : Bijection α β) : List (α × β) → List (α × β)
  | [] => []
  | x :: xs =>
    match insert x.1 x.2 t with
    | .ok _ t' => x :: acceptedFrom t' xs
    | .error _ t' => acceptedFrom t' xs

theorem ofList_append (history more : List (α × β)) :
    ofList (history ++ more) = (ofList history).after more := List.foldl_append

theorem offer_of_ok {x : α × β} (h : insert x.1 x.2 t = .ok () t') : t.offer x = t' := by
  rw [offer, h]

/-- A pair that is refused changes nothing. -/
theorem offer_of_error {x : α × β} {c : Conflict α β} (h : insert x.1 x.2 t = .error c t') :
    t.offer x = t := by
  obtain ⟨-, rfl⟩ := insert_error_iff.1 h
  rw [offer, h]

/-- A pair that is offered keeps the indexes mirrored and the pairs where they are. -/
theorem Mirrored.offer {t : Bijection α β} (h : t.Mirrored) (x : α × β) :
    (t.offer x).Mirrored ∧ t.pairs <+: (t.offer x).pairs := by
  cases hinsert : insert x.1 x.2 t with
  | error c _ =>
    rw [offer_of_error hinsert]
    exact ⟨h, List.prefix_refl _⟩
  | ok _ t' =>
    rw [offer_of_ok hinsert]
    obtain ⟨rfl, -⟩ | ⟨h', hpairs, -⟩ := h.insert_cases hinsert
    · exact ⟨h, List.prefix_refl _⟩
    · exact ⟨h', hpairs ▸ List.prefix_append _ _⟩

theorem Mirrored.after {t : Bijection α β} (h : t.Mirrored) (history : List (α × β)) :
    (t.after history).Mirrored ∧ t.pairs <+: (t.after history).pairs := by
  induction history generalizing t with
  | nil => exact ⟨h, List.prefix_refl _⟩
  | cons x xs ih =>
    obtain ⟨h', hprefix⟩ := h.offer x
    exact ⟨(ih h').1, hprefix.trans (ih h').2⟩

/-- Each accepted pair stands where it was accepted first. -/
theorem Mirrored.pairs_after {t : Bijection α β} (h : t.Mirrored) (history : List (α × β))
    {s : OrderedSet (α × β)} (hs : s.toList = t.pairs) :
    (t.after history).pairs = (s.insertAll (t.acceptedFrom history)).toList := by
  induction history generalizing t s with
  | nil => exact hs.symm
  | cons x xs ih =>
    have hnext := (h.offer x).1
    cases hinsert : insert x.1 x.2 t with
    | error c _ =>
      obtain ⟨-, rfl⟩ := insert_error_iff.1 hinsert
      rw [Bijection.after, List.foldl_cons, offer_of_error hinsert, acceptedFrom, hinsert]
      exact ih h hs
    | ok _ t' =>
      rw [offer_of_ok hinsert] at hnext
      rw [Bijection.after, List.foldl_cons, offer_of_ok hinsert, acceptedFrom, hinsert]
      -- the set grows exactly when the table does
      refine ih hnext (s := s.insert x) ?_
      rw [OrderedSet.toList_insert]
      obtain ⟨rfl, hmem⟩ | ⟨-, hpairs, hmem⟩ := h.insert_cases hinsert
      · rw [if_pos (OrderedSet.mem_toList.1 (hs ▸ hmem)), hs]
      · rw [if_neg (fun hx => hmem (hs ▸ OrderedSet.mem_toList.2 hx)), hs, hpairs]

/-- **After every history the table is a partial bijection.**  Its two directions are inverse to
each other and of one size, and it lists its pairs in the order in which they were accepted first.
A pair is accepted exactly if it agrees with the table; a refused one reports the partner that it
disagrees with, the one of its left side first, and changes nothing; and what is entered stays as it
is, whatever comes after. -/
theorem history_bijective (history : List (α × β)) :
    (∀ a b, (ofList history).forth? a = some b ↔ (ofList history).back? b = some a)
      ∧ (ofList history).forward.size = (ofList history).backward.size
      ∧ (ofList history).pairs = (OrderedSet.ofList (empty.acceptedFrom history)).toList
      ∧ (∀ a b, (∃ t', insert a b (ofList history) = .ok () t') ↔ (ofList history).Agrees a b)
      ∧ (∀ a b c t', insert a b (ofList history) = .error c t'
          ↔ (ofList history).Refuses a b c ∧ t' = ofList history)
      ∧ (∀ a b c t', insert a b (ofList history) = .error c t' →
          ofList (history ++ [(a, b)]) = ofList history)
      ∧ ∀ more, (ofList history).pairs <+: (ofList (history ++ more)).pairs := by
  have hempty : (empty : Bijection α β).Mirrored := rfl
  have hmirrored : (ofList history).Mirrored := (hempty.after history).1
  have hpairs := hempty.pairs_after history (s := .empty) rfl
  refine ⟨fun _ _ => hmirrored.forth_iff, hmirrored.size_eq, hpairs, fun _ _ => insert_ok_iff,
    fun _ _ _ _ => insert_error_iff, fun a b c t' herror => ?_, fun more => ?_⟩
  · rw [ofList_append]
    exact offer_of_error herror
  · rw [ofList_append]
    exact (hmirrored.after more).2

end Bijection

end LambdaLift
