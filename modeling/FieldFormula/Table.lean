/-!
Finite maps from names. The order is that of first insertion; a name inserted again
keeps its place and takes the new value.
-/
namespace FieldFormula

structure Table (α : Type) where
  entries : List (String × α)
  distinct : (entries.map Prod.fst).Nodup

namespace Table
variable {α : Type}

def empty : Table α := ⟨[], List.nodup_nil⟩

def find? (t : Table α) (name : String) : Option α := t.entries.lookup name

def contains (t : Table α) (name : String) : Bool := (t.find? name).isSome

def size (t : Table α) : Nat := t.entries.length

def put (name : String) (v : α) : List (String × α) → List (String × α)
  | [] => [(name, v)]
  | (k, w) :: r => if k = name then (name, v) :: r else (k, w) :: put name v r

theorem names_put (name : String) (v : α) (r : List (String × α)) :
    (put name v r).map Prod.fst = if name ∈ r.map Prod.fst then r.map Prod.fst
    else r.map Prod.fst ++ [name] := by
  induction r with
  | nil => rfl
  | cons e r ih =>
    obtain ⟨k, w⟩ := e
    by_cases h : k = name
    · subst h
      simp [put]
    · simp only [put, if_neg h, List.map_cons, ih, List.mem_cons, Ne.symm h, false_or]
      split <;> simp

theorem nodup_put {name : String} {v : α} {r : List (String × α)} (h : (r.map Prod.fst).Nodup) :
    ((put name v r).map Prod.fst).Nodup := by
  rw [names_put]
  split
  · exact h
  · next hn =>
    refine List.nodup_append.2 ⟨h, List.nodup_cons.2 ⟨List.not_mem_nil, List.nodup_nil⟩,
      fun a ha b hb e => hn ?_⟩
    rw [← List.mem_singleton.1 hb, ← e]
    exact ha

def insert (t : Table α) (name : String) (v : α) : Table α :=
  ⟨put name v t.entries, nodup_put t.distinct⟩

theorem lookup_cons_eq (k k' : String) (v : α) (r : List (String × α)) :
    ((k', v) :: r).lookup k = if k = k' then some v else r.lookup k := by
  by_cases h : k = k'
  · subst h
    rw [List.lookup_cons_self, if_pos rfl]
  · rw [List.lookup_cons, beq_false_of_ne h, if_neg h]

theorem lookup_put (name k : String) (v : α) (r : List (String × α)) :
    (put name v r).lookup k = if k = name then some v else r.lookup k := by
  induction r with
  | nil => exact lookup_cons_eq k name v []
  | cons e r ih =>
    obtain ⟨k', w⟩ := e
    by_cases h' : k' = name
    · subst h'
      rw [put, if_pos rfl, lookup_cons_eq, lookup_cons_eq]
      by_cases h : k = k'
      · rw [if_pos h, if_pos h]
      · rw [if_neg h, if_neg h, if_neg h]
    · rw [put, if_neg h', lookup_cons_eq, lookup_cons_eq, ih]
      by_cases h : k = k'
      · subst h
        rw [if_pos rfl, if_pos rfl, if_neg h']
      · rw [if_neg h, if_neg h]

theorem find?_empty (k : String) : (empty : Table α).find? k = none := rfl

theorem find?_insert (t : Table α) (name k : String) (v : α) :
    (t.insert name v).find? k = if k = name then some v else t.find? k := lookup_put ..

def ofList (es : List (String × α)) : Table α := es.foldl (fun t e => t.insert e.1 e.2) empty

def sorted (t : Table α) : List (String × α) := t.entries.mergeSort fun a b => a.1 ≤ b.1

end Table
end FieldFormula
