import FieldFormula.Definition
import FieldFormula.Proofs.OutcomeJson

/-!
Definitions written as JSON and read back. What is written is one canonical form of all that is read
as the same definition: members in any order among others, or their values alone in their order.
-/
namespace FieldFormula
open Json Lexeme

namespace Json

/- Whole numbers. -/

def wholeFigure (n : Nat) : Figure := ⟨false, ⟨Nat.toDigits 10 n, [], false, []⟩, true⟩

theorem head?_toDigits_eq_zero {n : Nat} (h : (Nat.toDigits 10 n).head? = some '0') :
    (Nat.toDigits 10 n).length = 1 := by
  cases n with
  | zero => rfl
  | succ n => exact absurd h (head?_toDigits_ne_zero (Nat.succ_pos n))

theorem Ends.head?_ne_point {rest : List Char} (h : Ends rest) : rest.head? ≠ some '.' := by
  intro hp
  rcases h '.' hp with he | he <;> cases he

theorem scans_whole (n : Nat) : Scans (.number (.integer n)) (.number (wholeFigure n)) := by
  intro rest hr
  have hf : figure? false (Nat.toDigits 10 n ++ rest) = some (wholeFigure n, rest) :=
    figure?_append (isDigit_of_mem_toDigits n) Nat.toDigits_ne_nil head?_toDigits_eq_zero
      hr.not_isDigit (fraction?_other hr.head?_ne_point) (exponent?_other hr.not_isMark)
  obtain ⟨c, r, hcr, hc⟩ := isDigit_of_figure? hf
  change scan (Nat.toDigits 10 n ++ rest) = _
  rw [hcr] at hf ⊢
  refine scan_of_scanFrom? (isSpace_of_isDigit hc) ?_
  rw [scanFrom?_of_isDigit hc, hf, Option.map_some]

theorem number?_wholeFigure {n : Nat} (h : n < UInt64.size) :
    (wholeFigure n).number? = some (.integer n) := by
  have hc : (wholeFigure n).numeral.value.coefficient = n := by
    simp [wholeFigure, Numeral.value, Nat.ofDigitChars_toDigits]
  simp only [Figure.number?, hc]
  simp [wholeFigure, h]

theorem natural?_wholeFigure {n limit : Nat} (h : n < limit) (hl : limit ≤ UInt64.size) :
    Form.natural? limit (.number (wholeFigure n)) = some n := by
  simp [Form.natural?, number?_wholeFigure (Nat.lt_of_lt_of_le h hl), h]

def Part.whole (n : Nat) : Part := .number (.integer n) (wholeFigure n) (scans_whole n)

/- Members by name. -/

def decode (ms : List (List Piece × Form)) : Option (List (String × Form)) :=
  ms.mapM fun (k, f) => (Form.string? k).map (·, f)

theorem decode_cons (m : List Piece × Form) (ms : List (List Piece × Form)) :
    decode (m :: ms) = (Form.string? m.1).bind fun k => (decode ms).map ((k, m.2) :: ·) := by
  obtain ⟨k, f⟩ := m
  simp only [decode, List.mapM_cons]
  cases Form.string? k <;>
    cases List.mapM (fun (m : List Piece × Form) => (Form.string? m.1).map (·, m.2)) ms <;> rfl

theorem decode_perm {ms ms' : List (List Piece × Form)} (h : ms.Perm ms')
    {es : List (String × Form)} (hd : decode ms = some es) :
    ∃ es', decode ms' = some es' ∧ es.Perm es' := by
  induction h generalizing es with
  | nil => exact ⟨es, hd, .refl _⟩
  | cons m h ih =>
    simp only [decode_cons, Option.bind_eq_some_iff, Option.map_eq_some_iff] at hd ⊢
    obtain ⟨k, hk, es, hes, rfl⟩ := hd
    obtain ⟨es', hes', hp⟩ := ih hes
    exact ⟨_, ⟨k, hk, es', hes', rfl⟩, hp.cons _⟩
  | swap m m' ms =>
    simp only [decode_cons, Option.bind_eq_some_iff, Option.map_eq_some_iff] at hd ⊢
    obtain ⟨k', hk', _, ⟨k, hk, es, hes, rfl⟩, rfl⟩ := hd
    exact ⟨_, ⟨k, hk, _, ⟨k', hk', es, hes, rfl⟩, rfl⟩, .swap ..⟩
  | trans _ _ ih₁ ih₂ =>
    obtain ⟨es₁, h₁, hp₁⟩ := ih₁ hd
    obtain ⟨es₂, h₂, hp₂⟩ := ih₂ h₁
    exact ⟨es₂, h₂, hp₁.trans hp₂⟩

theorem lookup_decode {ms : List (List Piece × Form)} {es : List (String × Form)}
    (h : decode ms = some es) (name : String) :
    es.lookup name = (ms.find? fun m => Form.string? m.1 = some name).map Prod.snd := by
  induction ms generalizing es with
  | nil =>
    cases h
    rfl
  | cons m ms ih =>
    simp only [decode_cons, Option.bind_eq_some_iff, Option.map_eq_some_iff] at h
    obtain ⟨k, hk, es, hes, rfl⟩ := h
    rw [Table.lookup_cons_eq, List.find?_cons, hk]
    by_cases hn : name = k
    · simp [hn]
    · simp [hn, Ne.symm hn, ih hes]

theorem decode_zip (names : List String) (fs : List Form) :
    decode ((names.map pieces).zip fs) = some (names.zip fs) := by
  induction names generalizing fs with
  | nil => rfl
  | cons name names ih =>
    cases fs with
    | nil => rfl
    | cons f fs => simp [decode_cons, string?_pieces, ih]

/- A name that is found once is found with the same value wherever it stands. -/
theorem lookup_eq_of_perm {es es' : List (String × Form)} (h : es.Perm es') {name : String}
    (hc : ¬ 1 < es.countP (·.1 = name)) : es.lookup name = es'.lookup name := by
  induction h with
  | nil => rfl
  | cons e h ih =>
    obtain ⟨k, f⟩ := e
    rw [Table.lookup_cons_eq, Table.lookup_cons_eq]
    by_cases hn : name = k
    · rw [if_pos hn, if_pos hn]
    · rw [if_neg hn, if_neg hn]
      refine ih fun hlt => hc ?_
      rwa [List.countP_cons_of_neg (by simpa using Ne.symm hn)]
  | swap e e' es =>
    obtain ⟨k, f⟩ := e
    obtain ⟨k', f'⟩ := e'
    simp only [Table.lookup_cons_eq]
    by_cases hn : name = k <;> by_cases hn' : name = k'
    · subst hn hn'
      simp at hc
    · simp only [if_pos hn, if_neg hn']
    · simp only [if_neg hn, if_pos hn']
    · simp only [if_neg hn, if_neg hn']
  | trans h _ ih₁ ih₂ => exact (ih₁ hc).trans (ih₂ (by rwa [← h.countP_eq]))

theorem fields?_object (names : List String) (least : Nat) (ms : List (List Piece × Form)) :
    Form.fields? names least (.object ms) = (decode ms).bind fun es =>
      if names.any fun n => 1 < es.countP (·.1 = n) then none
      else some (names.map fun n => es.lookup n) := by
  rfl

theorem fields?_object_perm (names : List String) (least : Nat)
    {ms ms' : List (List Piece × Form)} (h : ms.Perm ms') :
    Form.fields? names least (.object ms) = Form.fields? names least (.object ms') := by
  rw [fields?_object, fields?_object]
  cases hd : decode ms with
  | none =>
    cases hd' : decode ms' with
    | none => rfl
    | some es' =>
      obtain ⟨es, he, -⟩ := decode_perm h.symm hd'
      rw [hd] at he
      cases he
  | some es =>
    obtain ⟨es', hd', hp⟩ := decode_perm h hd
    rw [hd', Option.bind_some, Option.bind_some]
    have ha : (names.any fun n => 1 < es.countP (·.1 = n)) =
        names.any fun n => 1 < es'.countP (·.1 = n) := by
      simp only [hp.countP_eq]
    rw [← ha]
    split
    · rfl
    · next hn =>
      simp only [List.any_eq_true, decide_eq_true_eq, not_exists, not_and] at hn
      exact congrArg some (List.map_congr_left fun n h => lookup_eq_of_perm hp (hn n h))

theorem fields?_object_cons_of_notMem {names : List String} (least : Nat) {k : List Piece}
    {n : String} (f : Form) (hk : Form.string? k = some n) (hn : n ∉ names)
    (ms : List (List Piece × Form)) :
    Form.fields? names least (.object ((k, f) :: ms)) = Form.fields? names least (.object ms) := by
  rw [fields?_object, fields?_object, decode_cons, hk, Option.bind_some, Option.bind_map]
  refine congrArg (Option.bind (decode ms)) (funext fun es => ?_)
  have hne : ∀ m ∈ names, ¬ n = m := fun m hm he => hn (he ▸ hm)
  have hc : (names.any fun m => 1 < ((n, f) :: es).countP (·.1 = m)) =
      names.any fun m => 1 < es.countP (·.1 = m) := by
    rw [Bool.eq_iff_iff, List.any_eq_true, List.any_eq_true]
    refine exists_congr fun m => and_congr_right fun hm => ?_
    rw [List.countP_cons_of_neg (by simpa using hne m hm)]
  have hl : (names.map fun m => ((n, f) :: es).lookup m) = names.map fun m => es.lookup m :=
    List.map_congr_left fun m hm => by rw [Table.lookup_cons_eq, if_neg (Ne.symm (hne m hm))]
  simp only [Function.comp_def]
  rw [hc, hl]

end Json

namespace Definition

def memberNames : List String :=
  ["entity", "field", "expression", "returnType", "decimalPlaces", "active", "description"]

theorem ofForm?_eq_some_iff {f : Form} {d : Definition} :
    ofForm? f = some d ↔
      ∃ entity field expression returnType decimalPlaces active description places,
        f.fields? memberNames 3 =
          some [some entity, some field, some expression, returnType, decimalPlaces, active,
            description] ∧
        entity.text? = some d.entity ∧ field.text? = some d.field ∧
        expression.text? = some d.expression ∧
        ReturnType.ofForm? returnType = some d.returnType ∧
        Form.optional (Form.natural? UInt32.size) decimalPlaces = some places ∧
        places.map UInt32.ofNat = d.decimalPlaces ∧
        active.elim (some true) Form.boolean? = some d.active ∧
        Form.optional Form.text? description = some d.description := by
  rw [ofForm?]
  simp only [Option.bind_eq_bind, Option.bind_eq_some_iff]
  constructor
  · intro h
    obtain ⟨fs, hf, h⟩ := h
    split at h
    · next entity field expression returnType decimalPlaces active description =>
      simp only [Option.bind_eq_some_iff] at h
      obtain ⟨e, he, fi, hfi, ex, hex, r, hr, p, hp, a, ha, s, hs, h⟩ := h
      cases h
      have ha' : active.elim (some true) Form.boolean? = some a := by
        cases active <;> exact ha
      exact ⟨_, _, _, _, _, _, _, p, hf, he, hfi, hex, hr, hp, rfl, ha', hs⟩
    · cases h
  · intro h
    obtain ⟨entity, field, expression, returnType, decimalPlaces, active, description, places,
      hf, he, hfi, hex, hr, hp, hpl, ha, hs⟩ := h
    refine ⟨_, hf, ?_⟩
    simp only [he, hfi, hex, hr, hp, hs, hpl, Option.bind_some]
    cases active <;> exact Option.bind_eq_some_iff.2 ⟨d.active, ha, rfl⟩

def parts (d : Definition) : List (String × Part) :=
  [("entity", .text d.entity), ("field", .text d.field), ("expression", .text d.expression),
    ("returnType", .text d.returnType.name)] ++
  (d.decimalPlaces.map fun p => ("decimalPlaces", Part.whole p.toNat)).toList ++
  [("active", .boolean d.active)] ++
  (d.description.map fun s => ("description", Part.text s)).toList

theorem members_parts (d : Definition) : Json.members d.parts = d.members := by
  obtain ⟨e, f, x, r, p, a, s⟩ := d
  cases p <;> cases s <;> rfl

theorem fields?_parts (d : Definition) :
    Form.fields? memberNames 3 (.object (forms d.parts)) =
      some [some (.text (pieces d.entity)), some (.text (pieces d.field)),
        some (.text (pieces d.expression)), some (.text (pieces d.returnType.name)),
        d.decimalPlaces.map fun p => .number (wholeFigure p.toNat),
        some (.boolean d.active), d.description.map fun s => .text (pieces s)] := by
  obtain ⟨e, f, x, r, p, a, s⟩ := d
  rw [Form.fields?, mapM_forms]
  cases p <;> cases s <;> rfl

theorem optional_natural? (p : Option UInt32) :
    Form.optional (Form.natural? UInt32.size) (p.map fun p => .number (wholeFigure p.toNat)) =
      some (p.map UInt32.toNat) := by
  cases p with
  | none => rfl
  | some p => exact congrArg (Option.map some) (natural?_wholeFigure p.toNat_lt (by decide))

theorem ofText?_write (d : Definition) : ofText? d.write = some d := by
  have hw : Form.ofText? d.write = some (.object (forms d.parts)) := by
    rw [write, toJson, ← members_parts]
    exact ofText?_write_object "entity" (.text d.entity) _
  rw [ofText?, hw, Option.bind_some, ofForm?_eq_some_iff]
  have hp : (d.decimalPlaces.map UInt32.toNat).map UInt32.ofNat = d.decimalPlaces := by
    cases d.decimalPlaces <;> simp
  exact ⟨_, _, _, _, _, _, _, _, fields?_parts d, string?_pieces _, string?_pieces _,
    string?_pieces _, Outcome.ofForm?_returnType _, optional_natural? _, hp, rfl,
    Outcome.optional_text? _⟩

/- What is read but not written in the same way. -/

theorem ofForm?_congr {f g : Form} (h : f.fields? memberNames 3 = g.fields? memberNames 3) :
    ofForm? f = ofForm? g := by
  refine Option.ext fun d => ?_
  rw [ofForm?_eq_some_iff, ofForm?_eq_some_iff, h]

theorem fields?_array (items : List Form) (hl : 3 ≤ items.length)
    (hm : items.length ≤ memberNames.length) :
    Form.fields? memberNames 3 (.array items) =
      Form.fields? memberNames 3 (.object ((memberNames.map pieces).zip items)) := by
  rw [fields?_object, decode_zip, Option.bind_some]
  match items, hl, hm with
  | [_, _, _], _, _ => rfl
  | [_, _, _, _], _, _ => rfl
  | [_, _, _, _, _], _, _ => rfl
  | [_, _, _, _, _, _], _, _ => rfl
  | [_, _, _, _, _, _, _], _, _ => rfl

def returnTypeForm? : Form → Option Form
  | .object ms => (ms.find? fun m => Form.string? m.1 = some "returnType").map Prod.snd
  | .array items => items[3]?
  | _ => none

theorem getElem?_fields? {f : Form} {fs : List (Option Form)}
    (h : f.fields? memberNames 3 = some fs) : fs[3]? = some (returnTypeForm? f) := by
  cases f with
  | object ms =>
    rw [fields?_object, Option.bind_eq_some_iff] at h
    obtain ⟨es, hd, h⟩ := h
    split at h
    · cases h
    · cases h
      exact congrArg some (lookup_decode hd "returnType")
  | array items =>
    rw [Form.fields?] at h
    split at h
    · cases h
      rfl
    · cases h
  | _ => cases h

inductive NamesNoReturnType : Option Form → Prop
  | missing : NamesNoReturnType none
  | null : NamesNoReturnType (some .null)
  | unknown {s : List Piece} {name : String} : Form.string? s = some name →
      (∀ r : ReturnType, Token.sameLetters r.name.toList (Text.trim name.toList) = false) →
      NamesNoReturnType (some (.text s))

theorem ofNameLenient_of_unknown {name : String}
    (h : ∀ r : ReturnType, Token.sameLetters r.name.toList (Text.trim name.toList) = false) :
    ReturnType.ofNameLenient name = .number := by
  have hf : (ReturnType.all.find? fun r =>
      Token.sameLetters r.name.toList (Text.trim name.toList)) = none :=
    List.find?_eq_none.2 fun r _ => by simp [h r]
  simp only [ReturnType.ofNameLenient, ReturnType.ofName, hf]

theorem ofForm?_of_namesNoReturnType {f : Option Form} (h : NamesNoReturnType f) :
    ReturnType.ofForm? f = some .number := by
  cases h with
  | missing => rfl
  | null => rfl
  | unknown hs hn =>
    simp [ReturnType.ofForm?, Form.optional, Form.text?, hs, ofNameLenient_of_unknown hn]

theorem returnType_of_ofForm? {f : Form} {d : Definition} (h : ofForm? f = some d)
    (hn : NamesNoReturnType (returnTypeForm? f)) : d.returnType = .number := by
  obtain ⟨_, _, _, r, _, _, _, _, hf, -, -, -, hr, -⟩ := ofForm?_eq_some_iff.1 h
  have he : some r = some (returnTypeForm? f) := getElem?_fields? hf
  rw [Option.some.inj he, ofForm?_of_namesNoReturnType hn] at hr
  exact (Option.some.inj hr).symm

/-- A definition comes back from JSON as it was, and so does one that was read from any text:
reading, writing and reading again gives what the first reading gave, where no return type or an
unknown one has become number. The order of the members and those with other names do not count, and
values without names are read as if they stood behind the names in their order. -/
theorem ofText?_write_of_ofText? :
    (∀ d : Definition, ofText? d.write = some d) ∧
    (∀ s d, ofText? s = some d → ofText? d.write = some d ∧
      ∀ f, Form.ofText? s = some f → NamesNoReturnType (returnTypeForm? f) →
        d.returnType = .number) ∧
    (∀ ms ms', ms.Perm ms' → ofForm? (.object ms) = ofForm? (.object ms')) ∧
    (∀ k name f ms, Form.string? k = some name → name ∉ memberNames →
      ofForm? (.object ((k, f) :: ms)) = ofForm? (.object ms)) ∧
    (∀ items, 3 ≤ items.length → items.length ≤ memberNames.length →
      ofForm? (.array items) = ofForm? (.object ((memberNames.map pieces).zip items))) := by
  refine ⟨ofText?_write, ?_, ?_, ?_, ?_⟩
  · intro s d hd
    refine ⟨ofText?_write d, fun f hf hn => ?_⟩
    rw [ofText?, hf, Option.bind_some] at hd
    exact returnType_of_ofForm? hd hn
  · intro ms ms' h
    exact ofForm?_congr (fields?_object_perm memberNames 3 h)
  · intro k name f ms hk hn
    exact ofForm?_congr (fields?_object_cons_of_notMem 3 f hk hn ms)
  · intro items hl hm
    exact ofForm?_congr (fields?_array items hl hm)

/-- A text with its members out of order, one of them of no definition, and with an
unknown return type. -/
def percentText : List Char :=
  "\x7b\"returnType\":\" Percent \",\"unit\":[1e400],\"active\":false,\"expression\":\"a\\n/ 'b'\",
    \"decimalPlaces\":4294967295,\"field\":\"\",
    \"description\":null,\"entity\":\"agent\"\x7d".toList

theorem ofText?_write_of_ofText?_of_percent :
    ∃ d, ofText? percentText = some d ∧ ofText? d.write = some d ∧ d.returnType = .number ∧
      d = ⟨"agent", "", "a\n/ 'b'", .number, some 4294967295, false, none⟩ := by
  have h : ((Form.ofText? percentText).map fun f =>
      (ofForm? f, (returnTypeForm? f).bind Form.text?)) =
        some (some ⟨"agent", "", "a\n/ 'b'", .number, some 4294967295, false, none⟩,
          some " Percent ") := by
    decide +kernel
  obtain ⟨f, hf, hft⟩ := Option.map_eq_some_iff.1 h
  obtain ⟨hd, ht⟩ := Prod.mk.inj hft
  obtain ⟨g, hg, ht⟩ := Option.bind_eq_some_iff.1 ht
  have hn : NamesNoReturnType (returnTypeForm? f) := by
    rw [hg]
    cases g with
    | text p => exact .unknown ht (by intro r; cases r <;> decide)
    | _ => cases ht
  obtain ⟨-, hread, -⟩ := ofText?_write_of_ofText?
  have hd' : ofText? percentText = some _ := Option.bind_eq_some_iff.2 ⟨f, hf, hd⟩
  obtain ⟨hw, hr⟩ := hread _ _ hd'
  exact ⟨_, hd', hw, hr f hf hn, rfl⟩

end Definition
end FieldFormula
