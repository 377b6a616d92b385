import FieldFormula.Proofs.Tables
import FieldFormula.Samples

/-!
Tables written with every field in quotes, and the samples that are read from them: neither blanks,
commas, quotes nor line ends inside a field move it or cut it.
-/
namespace FieldFormula

namespace Csv

def escape (c : Char) : List Char := if c = '"' then ['"', '"'] else [c]

def quote (f : List Char) : List Char := '"' :: (f.flatMap escape ++ ['"'])

def writeRow (fs : List (List Char)) : List Char := [','].intercalate (fs.map quote) ++ ['\n']

def rowTail : List (List Char) → List Char
  | [] => ['\n']
  | f :: fs => ',' :: (quote f ++ rowTail fs)

theorem writeRow_cons (f : List Char) (fs : List (List Char)) :
    writeRow (f :: fs) = quote f ++ rowTail fs := by
  induction fs generalizing f with
  | nil => simp [writeRow, rowTail]
  | cons g fs ih =>
    have hg := ih g
    simp only [writeRow, List.map_cons] at hg ⊢
    rw [List.intercalate_cons_cons, List.append_assoc, List.append_assoc, hg]
    rfl

def FieldEnd (rest : List Char) : Prop := ∃ c r, rest = c :: r ∧ endsField c = true

theorem fieldEnd_rowTail (fs : List (List Char)) (rest : List Char) :
    FieldEnd (rowTail fs ++ rest) := by
  cases fs with
  | nil => exact ⟨'\n', rest, rfl, rfl⟩
  | cons f fs => exact ⟨',', _, rfl, rfl⟩

theorem bare_of_fieldEnd {rest : List Char} (h : FieldEnd rest) : bare rest = ([], rest) := by
  obtain ⟨c, r, rfl, hc⟩ := h
  simp [bare, hc]

theorem quoted_close {rest : List Char} (h : FieldEnd rest) :
    quoted ('"' :: rest) = ([], rest) := by
  obtain ⟨c, r, rfl, hc⟩ := h
  have hq : c ≠ '"' := by
    intro he
    subst he
    cases hc
  rw [quoted, if_pos rfl, bare_of_fieldEnd ⟨c, r, rfl, hc⟩]
  intro r' _ he
  exact hq (List.head_eq_of_cons_eq he)

theorem quoted_plain {c : Char} (hc : c ≠ '"') (r : List Char) :
    quoted (c :: r) = (c :: (quoted r).1, (quoted r).2) := by
  rw [quoted, if_neg hc]
  intro r' he
  cases he
  exact absurd rfl hc

theorem quoted_flatMap_escape {rest : List Char} (h : FieldEnd rest) (f : List Char) :
    quoted (f.flatMap escape ++ '"' :: rest) = (f, rest) := by
  induction f with
  | nil => exact quoted_close h
  | cons c f ih =>
    by_cases hc : c = '"'
    · subst hc
      simp [escape, quoted, ih]
    · simp [escape, hc, quoted_plain hc, ih]

theorem field_quote {rest : List Char} (h : FieldEnd rest) (f : List Char) :
    field (quote f ++ rest) = (f, rest) := by
  have hq : quote f ++ rest = '"' :: (f.flatMap escape ++ '"' :: rest) := by simp [quote]
  rw [hq, field, quoted_flatMap_escape h]

theorem row_of_comma {cs f r : List Char} (h : field cs = (f, ',' :: r)) :
    row cs = (f :: (row r).1, (row r).2) := by
  rw [row]
  split
  · next r' h' =>
    have he : ',' :: r = ',' :: r' := by rw [← h', h]
    cases he
    simp [h]
  · next h' =>
    rw [h] at h'
    exact absurd rfl (h' r)

theorem row_of_lineEnd {cs f r : List Char} (h : field cs = (f, '\n' :: r)) :
    row cs = ([f], '\n' :: r) := by
  rw [row]
  split
  · next r' h' =>
    rw [h] at h'
    cases h'
  · rw [h]

theorem row_writeRow (f : List Char) (fs : List (List Char)) (rest : List Char) :
    row (writeRow (f :: fs) ++ rest) = (f :: fs, '\n' :: rest) := by
  induction fs generalizing f with
  | nil =>
    rw [writeRow_cons, List.append_assoc]
    exact row_of_lineEnd (field_quote (fieldEnd_rowTail [] rest) f)
  | cons g fs ih =>
    have hf : field (quote f ++ (rowTail (g :: fs) ++ rest)) =
        (f, ',' :: (writeRow (g :: fs) ++ rest)) := by
      rw [writeRow_cons]
      exact field_quote (fieldEnd_rowTail (g :: fs) rest) f
    rw [writeRow_cons, List.append_assoc, row_of_comma hf, ih g]

theorem next?_writeRow {fs : List (List Char)} (hne : fs ≠ []) (rest : List Char) :
    next? (writeRow fs ++ rest) = some (fs, '\n' :: rest) := by
  cases fs with
  | nil => exact absurd rfl hne
  | cons f fs =>
    have hr := row_writeRow f fs rest
    rw [writeRow_cons] at hr ⊢
    exact congrArg some hr

/- The line end that the row above has left over is skipped. -/
theorem next?_lineEnd (cs : List Char) : next? ('\n' :: cs) = next? cs := rfl

theorem withoutMark_writeRow {fs : List (List Char)} (hne : fs ≠ []) (rest : List Char) :
    withoutMark (writeRow fs ++ rest) = writeRow fs ++ rest := by
  cases fs with
  | nil => exact absurd rfl hne
  | cons f fs =>
    rw [writeRow_cons]
    rfl

end Csv

namespace Samples
open Csv

def tableText (names values : List String) (below : List Char) : List Char :=
  writeRow (names.map String.toList) ++ (writeRow (values.map String.toList) ++ below)

variable {names values : List String}

theorem ofCsv_of_rows {cs r r' : List Char} {header fields : List (List Char)}
    (hh : next? (withoutMark cs) = some (header, r)) (hf : next? r = some (fields, r')) :
    ofCsv cs = if fields.length = header.length then
        .ok ⟨Table.empty,
          some (Table.ofList ((header.map fun name => String.ofList (Text.trim name)).zip
            (fields.map fun v => .text (String.ofList v))))⟩
      else .error .malformed := by
  simp only [ofCsv, hh, hf]

theorem map_trim_toList (h : ∀ name ∈ names, Text.trim name.toList = name.toList) :
    (names.map String.toList).map (fun name => String.ofList (Text.trim name)) = names := by
  induction names with
  | nil => rfl
  | cons name names ih =>
    obtain ⟨hn, hs⟩ := List.forall_mem_cons.1 h
    simp [hn, ih hs]

def ofRow (names values : List String) : Samples :=
  ⟨Table.empty, some (Table.ofList (names.zip (values.map FieldValue.text)))⟩

theorem ofCsv_tableText (hn : names ≠ []) (hv : values ≠ [])
    (ht : ∀ name ∈ names, Text.trim name.toList = name.toList) (below : List Char) :
    ofCsv (tableText names values below) =
      if values.length = names.length then .ok (ofRow names values) else .error .malformed := by
  have hn' : names.map String.toList ≠ [] := by simpa using hn
  have hv' : values.map String.toList ≠ [] := by simpa using hv
  have hh := next?_writeRow hn' (writeRow (values.map String.toList) ++ below)
  rw [← withoutMark_writeRow hn'] at hh
  have hf := next?_writeRow hv' below
  rw [← next?_lineEnd] at hf
  rw [tableText, ofCsv_of_rows hh hf, map_trim_toList ht]
  simp [ofRow, Function.comp_def]

theorem find?_zip_texts (hl : values.length = names.length) {x : String} {v : FieldValue} :
    (Table.ofList (names.zip (values.map FieldValue.text))).find? x = some v ↔
      ∃ (i : Nat) (s : String), names[i]? = some x ∧ values[i]? = some s ∧ v = .text s ∧
        ∀ j, i < j → names[j]? ≠ some x := by
  have hfst : (names.zip (values.map FieldValue.text)).map Prod.fst = names :=
    List.map_fst_zip (by simp [hl])
  rw [Table.find?_ofList_eq_some, Table.Last, hfst]
  simp only [List.getElem?_zip_eq_some, List.getElem?_map, Option.map_eq_some_iff]
  constructor
  · intro h
    obtain ⟨i, ⟨hn, s, hs, rfl⟩, hj⟩ := h
    exact ⟨i, s, hn, hs, rfl, hj⟩
  · intro h
    obtain ⟨i, s, hn, hs, rfl, hj⟩ := h
    exact ⟨i, ⟨hn, s, hs, rfl⟩, hj⟩

/-- A table with all fields in quotes is read without loss: every kind of entity has the record in
which each name of the header stands for the text in the last column of that name, and nothing else;
what stands below the first row does not count. A first row that is longer or shorter than the
header is refused, however it is written. -/
theorem recordFor_ofCsv_tableText (names : List String) (hn : names ≠ [])
    (ht : ∀ name ∈ names, Text.trim name.toList = name.toList) :
    (∀ values : List String, values.length = names.length →
      ∃ s, (∀ below, ofCsv (tableText names values below) = .ok s) ∧
        ∀ entity, ∃ r, s.recordFor entity = some r ∧
          ∀ x v, r.find? x = some v ↔
            ∃ (i : Nat) (t : String), names[i]? = some x ∧ values[i]? = some t ∧ v = .text t ∧
              ∀ j, i < j → names[j]? ≠ some x) ∧
    (∀ values : List String, values ≠ [] → values.length ≠ names.length →
      ∀ below, ofCsv (tableText names values below) = .error .malformed) ∧
    (∀ cs header after values below, next? (withoutMark cs) = some (header, after) →
      next? after = some (values, below) → values.length ≠ header.length →
      ofCsv cs = .error .malformed) := by
  refine ⟨?_, ?_, ?_⟩
  · intro values hl
    have hv : values ≠ [] := by
      intro he
      subst he
      exact hn (List.length_eq_zero_iff.1 hl.symm)
    refine ⟨ofRow names values, fun below => ?_, fun entity => ?_⟩
    · rw [ofCsv_tableText hn hv ht, if_pos hl]
    · exact ⟨_, rfl, fun x v => find?_zip_texts hl⟩
  · intro values hv hl below
    rw [ofCsv_tableText hn hv ht, if_neg hl]
  · intro cs header after values below hh hf hl
    rw [ofCsv_of_rows hh hf, if_neg hl]

theorem recordFor_ofCsv_tableText_of_doubled_name :
    ∃ names s r, names = ["price", "note", "price"] ∧ names ≠ [] ∧
      (∀ name ∈ names, Text.trim name.toList = name.toList) ∧
      ofCsv "\"price\",\"note\",\"price\"\n\"1,5\",\"say \"\"hi\"\"\r\n\",\" 2 \"\n\"open".toList =
        .ok s ∧
      s.recordFor "agent" = some r ∧ r.find? "price" = some (.text " 2 ") ∧
      r.find? "note" = some (.text "say \"hi\"\r\n") ∧ r.find? "Note" = none ∧
      ofCsv "\"price\",\"note\",\"price\"\n\"1,5\"\n".toList = .error .malformed := by
  have ht : ∀ name ∈ ["price", "note", "price"], Text.trim name.toList = name.toList := by decide
  obtain ⟨same, other, -⟩ := recordFor_ofCsv_tableText ["price", "note", "price"] (by decide) ht
  obtain ⟨s, hs, hr⟩ := same ["1,5", "say \"hi\"\r\n", " 2 "] rfl
  obtain ⟨r, hr, hf⟩ := hr "agent"
  refine ⟨_, s, r, rfl, by decide, ht, hs "\"open".toList, hr, (hf _ _).2 ⟨2, _, rfl, rfl, rfl, ?_⟩,
    (hf _ _).2 ⟨1, _, rfl, rfl, rfl, ?_⟩, Option.eq_none_iff_forall_ne_some.2 ?_, other ["1,5"]
    (by decide) (by decide) []⟩
  · intro j hj
    rw [List.getElem?_eq_none (show 3 ≤ j from hj)]
    nofun
  · intro j hj hn
    have hj' : j < 3 := (List.getElem?_eq_some_iff.1 hn).1
    obtain rfl : j = 2 := by omega
    exact absurd hn (by decide)
  · intro v hv
    obtain ⟨i, t, hn, -⟩ := (hf _ _).1 hv
    exact absurd (List.mem_of_getElem? hn) (by decide)

end Samples
end FieldFormula
