import FieldFormula.Table
import Mathlib.Data.List.Induction
import Mathlib.Tactic.ByContra

/-!
Look-up in tables: the order of the entries plays no part, and of the entries that a table is
made from the last one with a name counts.
-/
namespace FieldFormula.Table
variable {α : Type}

theorem find?_eq_some_iff (t : Table α) (x : String) (v : α) :
    t.find? x = some v ↔ (x, v) ∈ t.entries := by
  obtain ⟨entries, hd⟩ := t
  change entries.lookup x = some v ↔ (x, v) ∈ entries
  induction entries with
  | nil => simp
  | cons entry entries ih =>
    obtain ⟨k, w⟩ := entry
    obtain ⟨hk, hd⟩ := List.nodup_cons.1 hd
    rw [lookup_cons_eq, List.mem_cons, Prod.mk.injEq]
    by_cases hx : x = k
    · subst hx
      have hv : (x, v) ∉ entries := fun h => hk (List.mem_map.2 ⟨_, h, rfl⟩)
      simp [hv, eq_comm]
    · simp [hx, ih hd]

theorem find?_eq_of_perm {s t : Table α} (h : s.entries.Perm t.entries) (x : String) :
    s.find? x = t.find? x := by
  apply Option.ext
  intro v
  rw [find?_eq_some_iff, find?_eq_some_iff, h.mem_iff]

theorem find?_ofList_concat (es : List (String × α)) (k x : String) (v : α) :
    (ofList (es ++ [(k, v)])).find? x = if x = k then some v else (ofList es).find? x := by
  simp [ofList, List.foldl_append, find?_insert]

def Last (es : List (String × α)) (x : String) (v : α) : Prop :=
  ∃ i : Nat, es[i]? = some (x, v) ∧ ∀ j, i < j → (es.map Prod.fst)[j]? ≠ some x

variable {es : List (String × α)} {k x : String} {v w : α}

theorem last_concat_self : Last (es ++ [(x, w)]) x v ↔ w = v := by
  constructor
  · intro h
    obtain ⟨i, hi, hl⟩ := h
    have hlast : ((es ++ [(x, w)]).map Prod.fst)[es.length]? = some x := by simp
    have hi' : es.length ≤ i := by
      by_contra hlt
      exact hl es.length (by omega) hlast
    rw [List.getElem?_append_right hi'] at hi
    have h0 : i - es.length = 0 := by
      by_contra hne
      simp [hne] at hi
    simpa [h0] using hi
  · rintro rfl
    refine ⟨es.length, by simp, fun j hj => ?_⟩
    rw [List.getElem?_eq_none (by simp; omega)]
    exact (Option.some_ne_none x).symm

theorem last_concat_of_ne (hx : x ≠ k) : Last (es ++ [(k, w)]) x v ↔ Last es x v := by
  constructor
  · intro h
    obtain ⟨i, hi, hl⟩ := h
    rw [List.getElem?_append] at hi
    split at hi
    · refine ⟨i, hi, fun j hj hj' => hl j hj ?_⟩
      have hlt := (List.getElem?_eq_some_iff.1 hj').1
      rw [List.map_append, List.getElem?_append_left hlt, hj']
    · have he := List.mem_of_getElem? hi
      cases List.mem_singleton.1 he
      exact absurd rfl hx
  · intro h
    obtain ⟨i, hi, hl⟩ := h
    have hlt := (List.getElem?_eq_some_iff.1 hi).1
    refine ⟨i, by rw [List.getElem?_append_left hlt, hi], fun j hj hj' => ?_⟩
    rw [List.map_append, List.getElem?_append] at hj'
    split at hj'
    · exact hl j hj hj'
    · have hk := List.mem_of_getElem? hj'
      exact hx (List.mem_singleton.1 hk)

theorem find?_ofList_eq_some : (ofList es).find? x = some v ↔ Last es x v := by
  induction es using List.reverseRecOn with
  | nil => simp [ofList, find?_empty, Last]
  | append_singleton es e ih =>
    obtain ⟨k, w⟩ := e
    rw [find?_ofList_concat]
    by_cases hx : x = k
    · subst hx
      rw [if_pos rfl, Option.some_inj, last_concat_self]
    · rw [if_neg hx, ih, last_concat_of_ne hx]

theorem find?_ofList_eq_none : (ofList es).find? x = none ↔ x ∉ es.map Prod.fst := by
  induction es using List.reverseRecOn with
  | nil => simp [ofList, find?_empty]
  | append_singleton es e ih =>
    obtain ⟨k, w⟩ := e
    rw [find?_ofList_concat]
    by_cases hx : x = k
    · simp [hx]
    · rw [if_neg hx, ih]
      simp [hx]

theorem last_iff_of_nodup (h : (es.map Prod.fst).Nodup) : Last es x v ↔ (x, v) ∈ es := by
  constructor
  · intro hl
    obtain ⟨i, hi, -⟩ := hl
    exact List.mem_of_getElem? hi
  · intro hm
    obtain ⟨i, hi⟩ := List.mem_iff_getElem?.1 hm
    have hx : (es.map Prod.fst)[i]? = some x := by rw [List.getElem?_map, hi, Option.map_some]
    refine ⟨i, hi, fun j hj hj' => ?_⟩
    have hlt := (List.getElem?_eq_some_iff.1 hx).1
    have he := (List.getElem?_inj hlt h).1 (hx.trans hj'.symm)
    omega

theorem last_map {β : Type} (f : α → β) {u : β} :
    Last (es.map fun e => (e.1, f e.2)) x u ↔ ∃ v, Last es x v ∧ f v = u := by
  have hn : (es.map fun e => (e.1, f e.2)).map Prod.fst = es.map Prod.fst := by
    rw [List.map_map]
    rfl
  rw [Last, hn]
  constructor
  · intro h
    obtain ⟨i, hi, hl⟩ := h
    rw [List.getElem?_map, Option.map_eq_some_iff] at hi
    obtain ⟨⟨k, v⟩, hi, he⟩ := hi
    cases he
    exact ⟨v, ⟨i, hi, hl⟩, rfl⟩
  · intro h
    obtain ⟨v, ⟨i, hi, hl⟩, rfl⟩ := h
    exact ⟨i, by rw [List.getElem?_map, hi, Option.map_some], hl⟩

theorem find?_ofList_map_entries {β : Type} (f : α → β) (t : Table α) (x : String) :
    (ofList (t.entries.map fun e => (e.1, f e.2))).find? x = (t.find? x).map f := by
  apply Option.ext
  intro u
  rw [find?_ofList_eq_some, last_map, Option.map_eq_some_iff]
  simp only [last_iff_of_nodup t.distinct, find?_eq_some_iff]

end FieldFormula.Table
