import FieldFormula.Outcome
import FieldFormula.Proofs.Tables

/-!
What a formula finds under a name: the number of the record's field, or zero where the record has no
such field and the formula uses the name.
-/
namespace FieldFormula

namespace Bindings

theorem find?_foldl_insert (names : List String) (n : Binary64) (b : Bindings) (x : String) :
    (names.foldl (fun b name => b.insert name n) b).find? x = if x ∈ names then some n
    else b.find? x := by
  induction names generalizing b with
  | nil => simp
  | cons name names ih =>
    rw [List.foldl_cons, ih, Table.find?_insert]
    by_cases h : x = name <;> by_cases h' : x ∈ names <;> simp [h, h']

theorem find?_seeds (used : List String) (r : Record) (x : String) :
    (seeds used r).find? x = if x ∈ used ∧ r.find? x = none then some (.zero false) else none := by
  simp [seeds, find?_foldl_insert, Table.find?_empty, Table.contains]

theorem bindFields_cons (name : String) (v : FieldValue) (fields : List (String × FieldValue))
    (b : Bindings) :
    bindFields b ((name, v) :: fields) =
      bindFields ((v.coerce.map (b.insert name)).getD b) fields := by
  cases h : v.coerce <;> simp [bindFields, h]

/- The names are distinct, so no later entry overwrites a binding. -/
theorem find?_bindFields (fields : List (String × FieldValue)) (h : (fields.map Prod.fst).Nodup)
    (b : Bindings) (x : String) :
    (bindFields b fields).find? x = ((fields.lookup x).bind FieldValue.coerce).or (b.find? x) := by
  induction fields generalizing b with
  | nil => rfl
  | cons entry fields ih =>
    obtain ⟨name, v⟩ := entry
    obtain ⟨hn, hd⟩ := List.nodup_cons.1 h
    have hb := ih hd
    rw [Table.lookup_cons_eq, bindFields_cons]
    by_cases hx : x = name
    · subst hx
      have hl : fields.lookup x = none := by
        rw [List.lookup_eq_none_iff]
        intro p hp
        have hk : p.1 ∈ fields.map Prod.fst := List.mem_map_of_mem hp
        exact bne_iff_ne.2 fun he => hn (he ▸ hk)
      cases hv : v.coerce <;> simp [hb, hl, hv, Table.find?_insert]
    · cases hv : v.coerce <;> simp [hb, hx, Table.find?_insert]

theorem find?_ofRecord (formula : String) (r : Record) (x : String) :
    (ofRecord formula r).find? x =
      ((r.find? x).map FieldValue.coerce).getD (if x ∈ Reference.used formula then
        some (.zero false) else none) := by
  rw [ofRecord, find?_bindFields _ r.distinct, find?_seeds]
  change ((r.find? x).bind FieldValue.coerce).or _ = _
  cases r.find? x <;> simp

end Bindings
end FieldFormula
