import FieldFormula.Proofs.Bindings

/-!
Records come about by changes: fields are set one by one, or the whole record is replaced. What
counts of a field is the last value written, and the bindings of a formula depend on nothing else.
-/
namespace FieldFormula

namespace Record

inductive Change where
  | insert (name : String) (v : FieldValue)
  | load (fields : List (String × FieldValue))
  | loadMembers (members : List (String × Json))
  | loadText (s : List Char)

/-- The members of an object in JSON as they are written, repeated names included. -/
def members? (s : List Char) : Option (List (String × Json)) :=
  match Json.Form.ofText? s with
  | some (.object members) => Json.Form.members? (Json.maxLevels - 1) members
  | _ => none

def fieldsOf (members : List (String × Json)) : List (String × FieldValue) :=
  members.map fun m => (m.1, .ofJson m.2)

namespace Change

def apply (r : Record) : Change → Record
  | insert name v => Table.insert r name v
  | load fields => Table.ofList fields
  | loadMembers members => ofMembers members
  | loadText s => (ofText? s).getD r

/-- The writes since the record was last replaced, those of the replacement included. -/
def log (writes : List (String × FieldValue)) : Change → List (String × FieldValue)
  | insert name v => writes ++ [(name, v)]
  | load fields => fields
  | loadMembers members => fieldsOf members
  | loadText s => ((members? s).map fieldsOf).getD writes

end Change

def after (changes : List Change) : Record := changes.foldl Change.apply Table.empty

def writes (changes : List Change) : List (String × FieldValue) := changes.foldl Change.log []

def Holds (r : Record) (writes : List (String × FieldValue)) : Prop :=
  ∀ x v, r.find? x = some v ↔ Table.Last writes x v

theorem holds_ofList (fields : List (String × FieldValue)) : Holds (Table.ofList fields) fields :=
  fun _ _ => Table.find?_ofList_eq_some

theorem holds_ofMembers (members : List (String × Json)) :
    Holds (ofMembers members) (fieldsOf members) :=
  holds_ofList (fieldsOf members)

theorem Holds.insert {r : Record} {ws : List (String × FieldValue)} (h : Holds r ws) (name : String)
    (v : FieldValue) : Holds (Table.insert r name v) (ws ++ [(name, v)]) := by
  intro x w
  rw [Table.find?_insert]
  by_cases hx : x = name
  · subst hx
    rw [if_pos rfl, Option.some_inj, Table.last_concat_self]
  · rw [if_neg hx, h x w, Table.last_concat_of_ne hx]

theorem ofForm?_object (levels : Nat) (members : List (List Json.Piece × Json.Form)) :
    ofForm? (levels + 1) (.object members) =
      (Json.Form.members? levels members).map fun ms => ofMembers (Table.ofList ms).entries := by
  rw [ofForm?, Json.Form.value?]
  cases Json.Form.members? levels members <;> rfl

theorem ofForm?_of_ne_object (levels : Nat) {f : Json.Form} (h : ∀ members, f ≠ .object members) :
    ofForm? levels f = none := by
  rw [ofForm?]
  split
  · next ms hv =>
    cases f with
    | object members => exact absurd rfl (h members)
    | array items => cases levels <;> simp [Json.Form.value?] at hv
    | _ => simp [Json.Form.value?] at hv
  · rfl

theorem ofText?_eq (s : List Char) :
    ofText? s = (members? s).map fun ms => ofMembers (Table.ofList ms).entries := by
  rw [ofText?, members?]
  cases Json.Form.ofText? s with
  | none => rfl
  | some f =>
    rw [Option.bind_some]
    cases f with
    | object members => exact ofForm?_object _ members
    | _ => rw [ofForm?_of_ne_object _ (by simp)]; rfl

theorem holds_ofText? {s : List Char} {r : Record} (h : ofText? s = some r) :
    ∃ ms, members? s = some ms ∧ Holds r (fieldsOf ms) := by
  rw [ofText?_eq, Option.map_eq_some_iff] at h
  obtain ⟨ms, hms, rfl⟩ := h
  refine ⟨ms, hms, fun x v => ?_⟩
  have hf := Table.find?_ofList_map_entries FieldValue.ofJson (Table.ofList ms) x
  rw [fieldsOf, Table.last_map, ← Option.mem_def, ofMembers]
  rw [hf, Option.mem_def, Option.map_eq_some_iff]
  simp only [Table.find?_ofList_eq_some]

theorem Holds.apply {r : Record} {ws : List (String × FieldValue)} (h : Holds r ws) (c : Change) :
    Holds (c.apply r) (c.log ws) := by
  cases c with
  | insert name v => exact h.insert name v
  | load fields => exact holds_ofList fields
  | loadMembers members => exact holds_ofMembers members
  | loadText s =>
    rw [Change.apply, Change.log]
    cases hr : ofText? s with
    | none =>
      rw [ofText?_eq, Option.map_eq_none_iff] at hr
      rwa [hr]
    | some r' =>
      obtain ⟨ms, hms, hh⟩ := holds_ofText? hr
      rwa [hms]

theorem holds_foldl (changes : List Change) {r : Record} {ws : List (String × FieldValue)}
    (h : Holds r ws) : Holds (changes.foldl Change.apply r) (changes.foldl Change.log ws) := by
  induction changes generalizing r ws with
  | nil => exact h
  | cons c changes ih => exact ih (h.apply c)

theorem holds_after (changes : List Change) : Holds (after changes) (writes changes) :=
  holds_foldl changes (holds_ofList [])

theorem find?_after_eq_none_iff {changes : List Change} {x : String} :
    (after changes).find? x = none ↔ x ∉ (writes changes).map Prod.fst := by
  have h : (after changes).find? x = (Table.ofList (writes changes)).find? x := by
    apply Option.ext
    intro v
    rw [holds_after changes x v, Table.find?_ofList_eq_some]
  rw [h, Table.find?_ofList_eq_none]

end Record

namespace Bindings
open Record

theorem find?_bindFields_seeds {formula : String} {r : Record} {names : List String}
    {fields : List (String × FieldValue)}
    (hn : ∀ name, name ∈ names ↔ name ∈ Reference.used formula) (hf : fields.Perm r.entries)
    (x : String) : (bindFields (seeds names r) fields).find? x = (ofRecord formula r).find? x := by
  have hd : (fields.map Prod.fst).Nodup := (hf.map Prod.fst).nodup_iff.2 r.distinct
  have hl : fields.lookup x = r.find? x := Table.find?_eq_of_perm (s := ⟨fields, hd⟩) hf x
  rw [find?_bindFields fields hd, find?_seeds, hl, find?_ofRecord]
  simp only [hn]
  cases r.find? x <;> simp

/-- What a formula finds under a name. A name that was written is bound to what its last value
counts as, if it counts as a number; of the others those are bound that the formula uses, to zero.
The order in which names and fields are gone through plays no part. -/
theorem find?_ofRecord_after (formula : String) (changes : List Change) (x : String) :
    (∀ v, (ofRecord formula (after changes)).find? x = some v ↔
      (∃ w, Table.Last (writes changes) x w ∧ w.coerce = some v) ∨
        (x ∉ (writes changes).map Prod.fst ∧ x ∈ Reference.used formula ∧ v = .zero false)) ∧
    ∀ names fields, (∀ name, name ∈ names ↔ name ∈ Reference.used formula) →
      fields.Perm (after changes).entries →
      (bindFields (seeds names (after changes)) fields).find? x =
        (ofRecord formula (after changes)).find? x := by
  refine ⟨fun v => ?_, fun names fields hn hf => find?_bindFields_seeds hn hf x⟩
  rw [find?_ofRecord, ← find?_after_eq_none_iff]
  simp only [← holds_after changes x]
  cases (after changes).find? x with
  | some w => simp
  | none => by_cases hu : x ∈ Reference.used formula <;> simp [hu, eq_comm]

theorem find?_ofRecord_after_of_overwritten :
    Table.Last (writes [.loadMembers [("a", .null), ("b", .boolean true), ("a", .text "n/a")],
        .insert "b" (.text "12 pcs")]) "b" (.text "12 pcs") ∧
      (bindFields (seeds ["c", "b", "a"] (Table.ofList [("a", .text "n/a"), ("b", .text "12 pcs")]))
        [("b", .text "12 pcs"), ("a", .text "n/a")]).find? "b" = some (.ofNat 12) := by
  have hl : Table.Last ([("a", .null), ("b", .boolean true), ("a", .text "n/a")] ++
      [("b", .text "12 pcs")]) "b" (FieldValue.text "12 pcs") := Table.last_concat_self.2 rfl
  have hr : after [.loadMembers [("a", .null), ("b", .boolean true), ("a", .text "n/a")],
      .insert "b" (.text "12 pcs")] =
        Table.ofList [("a", .text "n/a"), ("b", .text "12 pcs")] := rfl
  have hu : Reference.used "a + b + c" = ["a", "b", "c"] := by decide +kernel
  obtain ⟨bound, order⟩ := find?_ofRecord_after "a + b + c"
    [.loadMembers [("a", .null), ("b", .boolean true), ("a", .text "n/a")],
      .insert "b" (.text "12 pcs")] "b"
  have hb := (bound (.ofNat 12)).2 (Or.inl ⟨_, hl, by decide +kernel⟩)
  rw [hr] at hb order
  rw [hu] at order
  exact ⟨hl, (order _ _ (by simp [or_comm, or_left_comm]) (.swap ..)).trans hb⟩

end Bindings
end FieldFormula
