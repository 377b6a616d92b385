import FieldFormula.Display
import FieldFormula.Proofs.Digits
import FieldFormula.Proofs.RoundedRange

/-!
The shape of displayed amounts: a sign, a dollar sign, digits in groups of three from the right,
and behind the point as many digits as there are places. Without sign, dollar sign and commas
this is the text of the rounded magnitude.
-/
namespace FieldFormula

namespace Decimal
variable {whole fraction : List Char}

def tail (fraction : List Char) : List Char := if fraction = [] then [] else '.' :: fraction

/-- The digits of `k` units of the last decimal place: as many behind the point as there are
places, and no needless zero in front. -/
structure Places (places k : Nat) (whole fraction : List Char) : Prop where
  digits : ∀ c ∈ whole ++ fraction, c.isDigit = true
  whole_ne_nil : whole ≠ []
  head : whole.head? = some '0' → whole = ['0']
  length : fraction.length = places
  value : Nat.ofDigitChars 10 (whole ++ fraction) 0 = k

theorem mem_tail {c : Char} (h : c ∈ tail fraction) : c = '.' ∨ c ∈ fraction := by
  unfold tail at h
  split at h
  · cases h
  · exact List.mem_cons.1 h

theorem head_tail {c : Char} (h : c ∈ (tail fraction).head?) : c = '.' := by
  unfold tail at h
  split at h
  · cases h
  · exact (Option.some.inj h).symm

section
variable {places k : Nat}

def padded (places k : Nat) : List Char :=
  List.replicate (places + 1 - (Nat.toDigits 10 k).length) '0' ++ Nat.toDigits 10 k

theorem lt_length_padded (places k : Nat) : places < (padded places k).length := by
  rw [padded, List.length_append, List.length_replicate]
  omega

theorem isDigit_of_mem_padded : ∀ c ∈ padded places k, c.isDigit = true :=
  List.forall_mem_append.2 ⟨isDigit_of_mem_zeros _, isDigit_of_mem_toDigits k⟩

theorem ofDigitChars_padded : Nat.ofDigitChars 10 (padded places k) 0 = k := by
  rw [padded, Nat.ofDigitChars_append, Nat.ofDigitChars_replicate_zero, Nat.mul_zero,
    Nat.ofDigitChars_ten_toDigits]

theorem length_padded_of_head (h : (padded places k).head? = some '0') :
    (padded places k).length = places + 1 := by
  by_cases hpad : (Nat.toDigits 10 k).length ≤ places
  · rw [padded, List.length_append, List.length_replicate]
    omega
  · have hbare : padded places k = Nat.toDigits 10 k := by
      rw [padded, Nat.sub_eq_zero_of_le (by omega)]
      rfl
    rw [hbare] at h ⊢
    have hk : k = 0 := Nat.eq_zero_of_not_pos fun hk => head?_toDigits_ne_zero hk h
    have hone : (Nat.toDigits 10 k).length = 1 := by rw [hk]; rfl
    omega

theorem pointed_eq (places k : Nat) : pointed places k =
    (padded places k).take ((padded places k).length - places) ++
      tail ((padded places k).drop ((padded places k).length - places)) := by
  have hlen := lt_length_padded places k
  by_cases hp : places = 0
  · simp [pointed, padded, tail, hp]
  · have hne : (padded places k).drop ((padded places k).length - places) ≠ [] := by
      rw [← List.length_pos_iff_ne_nil, List.length_drop]
      omega
    rw [tail, if_neg hne]
    exact if_neg hp

theorem exists_pointed (places k : Nat) :
    ∃ whole fraction, Places places k whole fraction ∧
      pointed places k = whole ++ tail fraction := by
  have hlen := lt_length_padded places k
  have hwhole : ((padded places k).take ((padded places k).length - places)).length =
      (padded places k).length - places := List.length_take_of_le (Nat.sub_le _ _)
  refine ⟨_, _, ⟨?_, ?_, ?_, ?_, ?_⟩, pointed_eq places k⟩
  · rw [List.take_append_drop]
    exact isDigit_of_mem_padded
  · rw [← List.length_pos_iff_ne_nil]
    omega
  · intro h
    rw [List.head?_take, if_neg (by omega)] at h
    have hone : (padded places k).length - places = 1 := by
      rw [length_padded_of_head h]
      omega
    rw [hone] at hwhole ⊢
    rw [List.take_one, h]
    rfl
  · rw [List.length_drop]
    omega
  · rw [List.take_append_drop]
    exact ofDigitChars_padded

end

end Decimal

namespace Display

/-- Three digits to a group, the first of which may have less. -/
structure Grouped (first : List Char) (others : List (List Char)) : Prop where
  pos : 1 ≤ first.length
  le : first.length ≤ 3
  others : ∀ g ∈ others, g.length = 3

theorem Grouped.length_mod {first : List Char} {others : List (List Char)}
    (h : Grouped first others) : (first :: others).flatten.length % 3 = first.length % 3 := by
  have hmod : ∀ groups : List (List Char), (∀ g ∈ groups, g.length = 3) →
      groups.flatten.length % 3 = 0 := by
    intro groups hg
    induction groups with
    | nil => rfl
    | cons g groups ih =>
      obtain ⟨hg, hgs⟩ := List.forall_mem_cons.1 hg
      rw [List.flatten_cons, List.length_append, hg, Nat.add_mod_left, ih hgs]
  rw [List.flatten_cons, List.length_append, Nat.add_mod, hmod others h.others, Nat.add_zero,
    Nat.mod_mod]

/-- The groups from the right: a further digit makes a group of its own when the first group
is full, else it joins the first group. -/
theorem exists_grouped (d : Char) (r : List Char) : ∃ first others, Grouped first others ∧
    (first :: others).flatten = d :: r ∧ group (d :: r) = [','].intercalate (first :: others) := by
  induction r generalizing d with
  | nil => exact ⟨[d], [], ⟨Nat.le_refl 1, by simp, List.forall_mem_nil _⟩, rfl, rfl⟩
  | cons e r ih =>
    obtain ⟨first, others, hg, hflat, htext⟩ := ih e
    have hmod : (e :: r).length % 3 = first.length % 3 := by rw [← hflat, hg.length_mod]
    have hpos := hg.pos
    have hle := hg.le
    rw [group]
    by_cases hfull : first.length = 3
    · have hcomma : ((e :: r).length % 3 = 0 && !(e :: r).isEmpty) = true := by
        rw [hmod, hfull]; rfl
      refine ⟨[d], first :: others,
        ⟨Nat.le_refl 1, by simp, List.forall_mem_cons.2 ⟨hfull, hg.others⟩⟩, ?_, ?_⟩
      · rw [List.flatten_cons, hflat]
        rfl
      · rw [if_pos hcomma, htext, List.intercalate_cons_cons]
        rfl
    · have hcomma : ((e :: r).length % 3 = 0 && !(e :: r).isEmpty) = false := by
        rw [hmod, decide_eq_false (by omega)]
        rfl
      refine ⟨d :: first, others, ⟨Nat.le_add_left .., by rw [List.length_cons]; omega, hg.others⟩,
        ?_, ?_⟩
      · rw [List.flatten_cons, List.cons_append, ← List.flatten_cons, hflat]
      · rw [if_neg (by rw [hcomma]; exact Bool.false_ne_true), htext]
        cases others with
        | nil => rfl
        | cons g others => rw [List.intercalate_cons_cons, List.intercalate_cons_cons]; rfl

theorem filter_group {p : Char → Bool} {ds : List Char} (hd : ∀ c ∈ ds, p c = true)
    (hp : p ',' = false) : (group ds).filter p = ds := by
  induction ds with
  | nil => rfl
  | cons d r ih =>
    obtain ⟨hd, hr⟩ := List.forall_mem_cons.1 hd
    rw [group]
    split <;> simp [hd, hp, ih hr]

def isBare (c : Char) : Bool := c ≠ '-' && c ≠ '$' && c ≠ ','

/-- The text `cs` shows the magnitude of `x` rounded to places: a sign or none, the
mark, the whole digits in groups with commas between them, and the decimal places.
What is bare in it is the ungrouped text. -/
def Shows (mark : List Char) (places : Nat) (x : Binary64) (cs : List Char) : Prop :=
  ∃ sign first others fraction u hu, (sign = [] ∨ sign = ['-']) ∧ Grouped first others ∧
    x.abs.roundPlaces places = .finite false u hu ∧
    Decimal.Places places (nearestEven (u * 10 ^ places) Binary64.one)
      (first :: others).flatten fraction ∧
    cs = sign ++ (mark ++ ([','].intercalate (first :: others) ++ Decimal.tail fraction)) ∧
    cs.filter isBare = Decimal.fixed places u

section
variable {places : Nat} {x : Binary64}

theorem isBare_of_isDigit {c : Char} (h : c.isDigit = true) : isBare c = true := by
  have hne : ∀ e : Char, e.isDigit = false → c ≠ e := by
    rintro e he rfl
    rw [he] at h
    cases h
  simp [isBare, hne '-' rfl, hne '$' rfl, hne ',' rfl]

theorem exists_fixed (hp : places ≤ 22) (hx : x.isFinite = true) :
    ∃ u hu, x.abs.roundPlaces places = .finite false u hu ∧
      fixed places x.abs = Decimal.fixed places u := by
  cases x with
  | nan => cases hx
  | infinity s => cases hx
  | finite s n h =>
    obtain ⟨u, hu, he⟩ := Binary64.exists_roundPlaces_eq_finite hp h
    refine ⟨u, hu, he, ?_⟩
    rw [fixed, Binary64.abs, he]

theorem mem_fixed {u : Nat} : ∀ c ∈ Decimal.fixed places u, c.isDigit = true ∨ c = '.' := by
  obtain ⟨whole, fraction, hplaces, htext⟩ :=
    Decimal.exists_pointed places (nearestEven (u * Nat.pow 10 places) Binary64.one)
  intro c hc
  rw [Decimal.fixed, htext, List.mem_append] at hc
  obtain ⟨hwhole, hfraction⟩ := List.forall_mem_append.1 hplaces.digits
  rcases hc with hc | hc
  · exact Or.inl (hwhole c hc)
  · exact (Decimal.mem_tail hc).symm.imp_left (hfraction c)

theorem groupWhole_tail {whole : List Char} (fraction : List Char)
    (h : ∀ c ∈ whole, c.isDigit = true) :
    groupWhole (whole ++ Decimal.tail fraction) = group whole ++ Decimal.tail fraction := by
  have hpoint : ∀ c ∈ whole, decide (c ≠ '.') = true := by
    intro c hc
    refine decide_eq_true ?_
    rintro rfl
    exact absurd (h '.' hc) (by decide)
  have hhead : ∀ c ∈ (Decimal.tail fraction).head?, decide (c ≠ '.') = false := by
    intro c hc
    rw [Decimal.head_tail hc]
    rfl
  obtain ⟨htake, hdrop⟩ := takeWhile_append_of_head hpoint hhead
  rw [groupWhole, htake, hdrop]

theorem isBare_of_mem_tail {fraction : List Char} (h : ∀ c ∈ fraction, c.isDigit = true) :
    ∀ c ∈ Decimal.tail fraction, isBare c = true := by
  intro c hc
  rcases Decimal.mem_tail hc with rfl | hc
  · rfl
  · exact isBare_of_isDigit (h c hc)

theorem shows_groupWhole {sign mark : List Char} (hp : places ≤ 22) (hx : x.isFinite = true)
    (hsign : sign = [] ∨ sign = ['-']) (hmark : mark.filter isBare = []) :
    Shows mark places x (sign ++ (mark ++ groupWhole (fixed places x.abs))) := by
  obtain ⟨u, hu, hround, hfixed⟩ := exists_fixed hp hx
  obtain ⟨whole, fraction, hplaces, htext⟩ :=
    Decimal.exists_pointed places (nearestEven (u * Nat.pow 10 places) Binary64.one)
  rw [← Decimal.fixed] at htext
  obtain ⟨d, r, rfl⟩ := List.exists_cons_of_ne_nil hplaces.whole_ne_nil
  obtain ⟨first, others, hgrouped, hflat, hgroup⟩ := exists_grouped d r
  obtain ⟨hwhole, hfraction⟩ := List.forall_mem_append.1 hplaces.digits
  have hcut : groupWhole (fixed places x.abs) = group (d :: r) ++ Decimal.tail fraction := by
    rw [hfixed, htext, groupWhole_tail fraction hwhole]
  have hkept : sign.filter isBare = [] := by rcases hsign with rfl | rfl <;> rfl
  refine ⟨sign, first, others, fraction, u, hu, hsign, hgrouped, hround, ?_, by rw [hcut, hgroup],
    ?_⟩
  · rwa [hflat]
  · rw [hcut, List.filter_append, List.filter_append, List.filter_append, hkept, hmark,
      filter_group (fun c hc => isBare_of_isDigit (hwhole c hc)) rfl,
      List.filter_eq_self.2 (isBare_of_mem_tail hfraction), htext]
    rfl

end

/-- The text of an amount and of a number with decimal places, for every finite number. -/
theorem display_shows {x : Binary64} (hx : x.isFinite = true) :
    (∀ places : Option Nat, Shows ['$'] (min (places.getD 2) 20) x
      (Outcome.display ⟨some (.number x), none, .currency⟩ places).toList) ∧
    ∀ places : Nat, Shows [] (min places 20) x
      (Outcome.display ⟨some (.number x), none, .number⟩ (some places)).toList := by
  have hle : ∀ p, min p maxPlaces ≤ 22 := fun p => Nat.le_trans (Nat.min_le_right ..) (by decide)
  refine ⟨fun places => ?_, fun places => ?_⟩
  · have h := hle (places.getD 2)
    have hcell : Outcome.display ⟨some (.number x), none, .currency⟩ places =
        String.ofList (amount places x) := if_pos hx
    rw [hcell, String.toList_ofList, amount]
    split
    · exact shows_groupWhole h hx (Or.inr rfl) rfl
    · exact shows_groupWhole h hx (Or.inl rfl) rfl
  · have h := hle places
    obtain ⟨u, hu, hround, hfixed⟩ := exists_fixed h hx
    have he : (fixed (min places maxPlaces) x.abs).contains 'e' = false := by
      rw [hfixed, List.contains_eq_mem, decide_eq_false_iff_not]
      intro hmem
      rcases mem_fixed _ hmem with h | h <;> cases h
    have hcell : Outcome.display ⟨some (.number x), none, .number⟩ (some places) =
        String.ofList (number (some places) x) :=
      if_pos hx
    rw [hcell, String.toList_ofList, number]
    rw [if_neg (by rw [he]; exact Bool.false_ne_true)]
    split
    · exact shows_groupWhole h hx (Or.inr rfl) rfl
    · exact shows_groupWhole h hx (Or.inl rfl) rfl

theorem display_shows_of_millions :
    Shows ['$'] 2 ((Binary64.ofInt (-1234567891)).div (.ofNat 1000)) "-$1,234,567.89".toList ∧
      Shows [] 0 ((Binary64.ofInt (-1234567891)).div (.ofNat 1000)) "-1,234,568".toList := by
  have hx : ((Binary64.ofInt (-1234567891)).div (.ofNat 1000)).isFinite = true := by decide +kernel
  obtain ⟨amounts, numbers⟩ := display_shows hx
  have ha : Outcome.display ⟨some (.number ((Binary64.ofInt (-1234567891)).div (.ofNat 1000))),
      none, .currency⟩ none =
        "-$1,234,567.89" := by decide +kernel
  have hn : Outcome.display ⟨some (.number ((Binary64.ofInt (-1234567891)).div (.ofNat 1000))),
      none, .number⟩
      (some 0) = "-1,234,568" := by decide +kernel
  exact ⟨ha ▸ amounts none, hn ▸ numbers 0⟩

end Display
end FieldFormula
