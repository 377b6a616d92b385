import FieldFormula.Proofs.Digits
import FieldFormula.Proofs.Mentions

/-!
The mentions of a text, told by its runs of word characters: each run has one that contains a letter
or an underscore, and they are listed from left to right.
-/
namespace FieldFormula.Reference
open Token
variable {cs r u v w : List Char} {x : String} {i : Nat}

/-- `w` is a run of word characters with `u` before it and `v` behind it, and it goes
on at neither side. -/
structure Run (cs u w v : List Char) : Prop where
  eq : cs = u ++ w ++ v
  word : ∀ c ∈ w, isWordChar c = true
  left : ∀ c ∈ u.getLast?, isWordChar c = false
  right : ∀ c ∈ v.head?, isWordChar c = false

/-- `x` is what a run has from its first letter or underscore on, and that is the
character at place `i`. -/
def Occurs (x : String) (i : Nat) (cs : List Char) : Prop :=
  ∃ u d v, Run cs u (d ++ x.toList) v ∧ (∀ c ∈ d, isWordStart c = false) ∧
    (∃ c s, x.toList = c :: s ∧ isWordStart c = true) ∧ i = u.length + d.length

theorem not_occurs_nil : ¬ Occurs x i [] := by
  rintro ⟨u, d, v, hrun, -, ⟨c, s, hx, -⟩, -⟩
  have h := hrun.eq
  simp [hx] at h

theorem mem_getLast?_append {a : Char} (h : a ∈ u.getLast?) : a ∈ (w ++ u).getLast? := by
  rw [List.getLast?_append, Option.mem_def.1 h]
  rfl

theorem Run.append_left {p : List Char} (h : Run cs u w v)
    (hp : u = [] → ∀ c ∈ p.getLast?, isWordChar c = false) : Run (p ++ cs) (p ++ u) w v where
  eq := by rw [h.eq, List.append_assoc, List.append_assoc, List.append_assoc]
  word := h.word
  left b hb := by
    cases hu : u.getLast? with
    | none =>
      have hnil := List.getLast?_eq_none_iff.1 hu
      rw [hnil, List.append_nil] at hb
      exact hp hnil b hb
    | some a =>
      cases Option.mem_unique hb (mem_getLast?_append hu)
      exact h.left b hu
  right := h.right

theorem Run.of_append_left {p : List Char} (h : Run (p ++ cs) (p ++ u) w v) : Run cs u w v where
  eq := by
    have heq := h.eq
    rwa [List.append_assoc, List.append_assoc, List.append_cancel_left_eq,
      ← List.append_assoc] at heq
  word := h.word
  left c hc := h.left c (mem_getLast?_append hc)
  right := h.right

theorem Run.unique {w' v' : List Char} (h : Run cs u w v) (h' : Run cs u w' v') : w = w' := by
  have heq := h.eq.symm.trans h'.eq
  rw [List.append_assoc, List.append_assoc, List.append_cancel_left_eq] at heq
  rw [← (takeWhile_append_of_head h.word h.right).1, heq,
    (takeWhile_append_of_head h'.word h'.right).1]

/- A digit is either a digit of the run's beginning or stands before the run, and
another character ends a run. -/
theorem occurs_cons_other {c : Char} (hc : isWordStart c = false) :
    Occurs x i (c :: r) ↔ ∃ j, i = j + 1 ∧ Occurs x j r := by
  constructor
  · rintro ⟨u, d, v, hrun, hd, ⟨e, s, hx, he⟩, rfl⟩
    have heq := hrun.eq
    cases u with
    | cons a u =>
      cases heq
      refine ⟨u.length + d.length, by simp; omega, u, d, v, ?_, hd, ⟨e, s, hx, he⟩, rfl⟩
      exact hrun.of_append_left (p := [c])
    | nil =>
      cases d with
      | nil =>
        rw [hx] at heq
        cases heq
        rw [hc] at he
        cases he
      | cons a d =>
        cases heq
        refine ⟨d.length, by simp, [], d, v, ⟨rfl, ?_, hrun.left, hrun.right⟩, ?_,
          ⟨e, s, hx, he⟩, by simp⟩
        · exact fun a ha => hrun.word a (List.mem_cons_of_mem _ ha)
        · exact fun a ha => hd a (List.mem_cons_of_mem _ ha)
  · rintro ⟨j, rfl, u, d, v, hrun, hd, hx, rfl⟩
    by_cases h : u = [] ∧ isWordChar c = true
    · obtain ⟨rfl, hcw⟩ := h
      refine ⟨[], c :: d, v, ⟨congrArg (c :: ·) hrun.eq, ?_, hrun.left, hrun.right⟩,
        ?_, hx, by simp⟩
      · exact List.forall_mem_cons.2 ⟨hcw, hrun.word⟩
      · exact List.forall_mem_cons.2 ⟨hc, hd⟩
    · refine ⟨[c] ++ u, d, v, hrun.append_left (p := [c]) fun hu a ha => ?_, hd, hx, by simp; omega⟩
      cases ha
      exact eq_false_of_ne_true fun hcw => h ⟨hu, hcw⟩

/- No run begins inside another one, so behind a run's first character the text is
read on only where the run ends. -/
theorem occurs_run (hw : Run cs [] w r) (hstart : ∃ c s, w = c :: s ∧ isWordStart c = true) :
    Occurs x i cs ↔ (i = 0 ∧ x = String.ofList w) ∨ ∃ j, i = j + w.length ∧ Occurs x j r := by
  have hcs : cs = w ++ r := hw.eq
  constructor
  · rintro ⟨u, d, v, hrun, hd, hx, rfl⟩
    have heq := hcs.symm.trans hrun.eq
    rw [List.append_assoc, List.append_eq_append_iff] at heq
    rcases heq with ⟨u', rfl, -⟩ | ⟨w', hsplit, -⟩
    · rw [hcs] at hrun
      exact Or.inr ⟨u'.length + d.length, by simp; omega, u', d, v, hrun.of_append_left,
        hd, hx, rfl⟩
    · have hu : u = [] := by
        refine List.getLast?_eq_none_iff.1 (Option.eq_none_iff_forall_not_mem.2 fun a ha => ?_)
        have hword := hw.word a (hsplit ▸ List.mem_append_left _ (List.mem_of_getLast? ha))
        rw [hrun.left a ha] at hword
        cases hword
      subst hu
      have hdx := hw.unique hrun
      obtain ⟨c, t, rfl, hc⟩ := hstart
      cases d with
      | nil => exact Or.inl ⟨rfl, by rw [hdx, List.nil_append, String.ofList_toList]⟩
      | cons a d =>
        cases hdx
        rw [hd c List.mem_cons_self] at hc
        cases hc
  · rintro (⟨rfl, rfl⟩ | ⟨j, rfl, u, d, v, hrun, hd, ⟨e, s, hx, he⟩, rfl⟩)
    · exact ⟨[], [], r, by simpa using hw, nofun, by simpa using hstart, rfl⟩
    · rw [hcs]
      refine ⟨w ++ u, d, v, hrun.append_left fun hu => ?_, hd, ⟨e, s, hx, he⟩, by simp; omega⟩
      -- the run of `x` would begin where `w` ends, and there is no word character
      obtain ⟨a, t, ha⟩ : ∃ a t, d ++ x.toList = a :: t := List.exists_cons_of_ne_nil (by simp [hx])
      have hfalse := hw.right a (by rw [hrun.eq, hu, ha]; rfl)
      rw [hrun.word a (ha ▸ List.mem_cons_self)] at hfalse
      cases hfalse

/- What the scan takes from a run, and where it goes on. -/
theorem mentions_run (h : Run cs [] w r) (hstart : ∃ c s, w = c :: s ∧ isWordStart c = true) :
    mentions cs = String.ofList w :: mentions r := by
  obtain ⟨c, s, rfl, hc⟩ := hstart
  obtain ⟨htake, hdrop⟩ := takeWhile_append_of_head h.word h.right
  rw [h.eq, List.nil_append, List.cons_append, mentions_cons_start hc, ← List.cons_append, htake,
    hdrop]

theorem run_takeWhile {c : Char} (hc : isWordChar c = true) (r : List Char) :
    Run (c :: r) [] (c :: r.takeWhile isWordChar) (r.dropWhile isWordChar) where
  eq := by rw [List.nil_append, List.cons_append, List.takeWhile_append_dropWhile]
  word := List.forall_mem_cons.2 ⟨hc, List.all_eq_true.1 List.all_takeWhile⟩
  left := nofun
  right a ha := by
    have h := List.head?_dropWhile_not isWordChar r
    rw [Option.mem_def.1 ha] at h
    simpa using h

structure Listed (cs : List Char) (ps : List (Nat × String)) : Prop where
  sorted : ps.Pairwise fun p q => p.1 < q.1
  mem : ∀ i x, (i, x) ∈ ps ↔ Occurs x i cs

def shift (k : Nat) (ps : List (Nat × String)) : List (Nat × String) :=
  ps.map fun p => (p.1 + k, p.2)

variable {k : Nat} {ps : List (Nat × String)}

theorem names_shift : (shift k ps).map Prod.snd = ps.map Prod.snd := by
  rw [shift, List.map_map]
  rfl

theorem sorted_shift (h : ps.Pairwise fun p q => p.1 < q.1) :
    (shift k ps).Pairwise fun p q => p.1 < q.1 :=
  List.pairwise_map.2 (h.imp fun hpq => Nat.add_lt_add_right hpq k)

theorem mem_shift : (i, x) ∈ shift k ps ↔ ∃ j, i = j + k ∧ (j, x) ∈ ps := by
  rw [shift, List.mem_map]
  constructor
  · rintro ⟨⟨j, y⟩, hmem, heq⟩
    cases heq
    exact ⟨j, rfl, hmem⟩
  · rintro ⟨j, rfl, hmem⟩
    exact ⟨(j, x), hmem, rfl⟩

theorem exists_listed (cs : List Char) : ∃ ps, ps.map Prod.snd = mentions cs ∧ Listed cs ps := by
  fun_induction mentions cs with
  | case1 => exact ⟨[], rfl, .nil, fun i x => iff_of_false List.not_mem_nil not_occurs_nil⟩
  | case2 c r hc _ ih =>
    obtain ⟨ps, hps, hsorted, hmem⟩ := ih
    have hrun := run_takeWhile (isWordChar_of_isWordStart hc) r
    refine ⟨(0, String.ofList (c :: r.takeWhile isWordChar)) ::
      shift (c :: r.takeWhile isWordChar).length ps, ?_, ?_, fun i x => ?_⟩
    · rw [List.map_cons, names_shift, hps]
    · refine List.pairwise_cons.2 ⟨fun p hp => ?_, sorted_shift hsorted⟩
      obtain ⟨j, hj, -⟩ := mem_shift.1 hp
      rw [hj, List.length_cons]
      omega
    · rw [List.mem_cons, mem_shift, occurs_run hrun ⟨c, _, rfl, hc⟩, Prod.mk.injEq]
      simp only [hmem]
  | case3 c r hc ih =>
    obtain ⟨ps, hps, hsorted, hmem⟩ := ih
    refine ⟨shift 1 ps, names_shift.trans hps, sorted_shift hsorted, fun i x => ?_⟩
    rw [mem_shift, occurs_cons_other (Bool.not_eq_true _ ▸ hc)]
    simp only [hmem]

end FieldFormula.Reference
