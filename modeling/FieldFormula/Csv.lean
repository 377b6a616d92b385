/-!
Rows of comma-separated text. A field may stand in quotes, with a quote inside written
twice; a quote elsewhere is a character like any other. Rows end at a line feed or a
carriage return, and empty lines are no rows.
-/
namespace FieldFormula.Csv

def isLineEnd (c : Char) : Bool := c = '\n' || c = '\r'

def endsField (c : Char) : Bool := c = ',' || isLineEnd c

def bare (cs : List Char) : List Char × List Char :=
  (cs.takeWhile fun c => !endsField c, cs.dropWhile fun c => !endsField c)

/-- The rest of a field inside quotes, and what follows it. Behind the closing quote the field goes
on without quotes; a field that is never closed takes all the text. -/
def quoted : List Char → List Char × List Char
  | [] => ([], [])
  | '"' :: '"' :: r =>
    let (f, rest) := quoted r
    ('"' :: f, rest)
  | c :: r =>
    if c = '"' then bare r
    else
      let (f, rest) := quoted r
      (c :: f, rest)

def field : List Char → List Char × List Char
  | '"' :: r => quoted r
  | cs => bare cs

theorem bare_length (cs : List Char) : (bare cs).2.length ≤ cs.length :=
  (List.dropWhile_suffix _).length_le

theorem quoted_length (cs : List Char) : (quoted cs).2.length ≤ cs.length := by
  fun_induction quoted cs with
  | case1 => exact Nat.le_refl _
  | case2 r f rest h ih => rw [h] at ih; simp only [List.length_cons] at *; omega
  | case3 r => have := bare_length r; simp only [List.length_cons]; omega
  | case4 c r _ _ f rest h ih => rw [h] at ih; simp only [List.length_cons] at *; omega

theorem field_length (cs : List Char) : (field cs).2.length ≤ cs.length := by
  unfold field
  split
  · next r => have := quoted_length r; simp only [List.length_cons]; omega
  · exact bare_length cs

def row (cs : List Char) : List (List Char) × List Char :=
  match h : (field cs).2 with
  | ',' :: r =>
    have : r.length < cs.length := by
      have := field_length cs; rw [h, List.length_cons] at this; omega
    ((field cs).1 :: (row r).1, (row r).2)
  | rest => ([(field cs).1], rest)
termination_by cs.length

def next? (cs : List Char) : Option (List (List Char) × List Char) :=
  match cs.dropWhile isLineEnd with
  | [] => none
  | cs => some (row cs)

def withoutMark : List Char → List Char
  | c :: r => if c.toNat = 0xFEFF then r else c :: r
  | [] => []

end FieldFormula.Csv
