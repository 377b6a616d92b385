import FieldFormula.Function
import FieldFormula.Proofs.NumberOrder

/-!
The largest and the smallest of a list of numbers. The gathering starts from an infinity that
nothing comes before, so it keeps to the numbers of the list as soon as there is one. What comes
last is determined by which numbers there are, whatever their order and however they are grouped.
-/
namespace FieldFormula.Function
open Binary64 (Orders Picks)
variable {below : Binary64 → Binary64 → Bool} {pick : Binary64 → Binary64 → Binary64}
  {ns ns' : List Binary64} {acc m n k : Binary64} {vs ws : List Value} {f : Function}

/-- One of the numbers, and it comes last among them; NaN just when one of them is. -/
structure Extreme (below : Binary64 → Binary64 → Bool) (ns : List Binary64) (m : Binary64) :
    Prop where
  nan : m.isNaN = true ↔ ∃ n ∈ ns, n.isNaN = true
  mem : m.isNaN = false → m ∈ ns
  last : m.isNaN = false → ∀ n ∈ ns, below n m = true

/- Order and repetition in the list do not matter. -/
theorem Extreme.unique (ho : Orders below) (hm : Extreme below ns m) (hn : Extreme below ns' n)
    (hns : ∀ x, x ∈ ns ↔ x ∈ ns') : m.dropZeroSign = n.dropZeroSign := by
  have hnan : m.isNaN = n.isNaN := by
    rw [Bool.eq_iff_iff, hm.nan, hn.nan]
    simp only [hns]
  cases h : m.isNaN with
  | true => rw [Binary64.eq_nan h, Binary64.eq_nan (hnan.symm.trans h)]
  | false =>
    have h' := hnan.symm.trans h
    exact ho.antisymm (hn.last h' m ((hns m).1 (hm.mem h))) (hm.last h n ((hns n).2 (hn.mem h')))

theorem Extreme.append (ho : Orders below) (hm : Extreme below ns m) (hn : Extreme below ns' n)
    (hk : Extreme below [m, n] k) : Extreme below (ns ++ ns') k := by
  have hnan : k.isNaN = true ↔ m.isNaN = true ∨ n.isNaN = true := by simp [hk.nan]
  refine ⟨?_, fun h => ?_, fun h x hx => ?_⟩
  · rw [hnan, hm.nan, hn.nan]
    simp only [List.mem_append, or_and_right, exists_or]
  · rcases List.mem_pair.1 (hk.mem h) with rfl | rfl
    · exact List.mem_append_left _ (hm.mem h)
    · exact List.mem_append_right _ (hn.mem h)
  · have hboth : m.isNaN = false ∧ n.isNaN = false := by simpa [h] using hnan
    rcases List.mem_append.1 hx with hx | hx
    · exact ho.trans (hm.last hboth.1 x hx) (hk.last h m List.mem_cons_self)
    · exact ho.trans (hn.last hboth.2 x hx)
        (hk.last h n (List.mem_cons_of_mem _ List.mem_cons_self))

theorem gather_of_nan (h : ∃ v ∈ vs, v.toNumber.isNaN = true) : gather pick acc vs = .nan := by
  induction vs generalizing acc with
  | nil =>
    obtain ⟨v, hv, -⟩ := h
    cases hv
  | cons v vs ih =>
    rw [gather]
    split
    · rfl
    · next hv => exact ih (((List.exists_mem_cons_iff ..).1 h).resolve_left hv)

/- The accumulator is the start or a number that has been read, and none of these
comes behind it. -/
theorem gather_last (ho : Orders below) (hp : Picks below pick) (hacc : acc.isNaN = false)
    (hvs : ∀ v ∈ vs, v.toNumber.isNaN = false) :
    gather pick acc vs ∈ acc :: vs.map Value.toNumber ∧
      ∀ x ∈ acc :: vs.map Value.toNumber, below x (gather pick acc vs) = true := by
  induction vs generalizing acc with
  | nil =>
    refine ⟨List.mem_cons_self, fun x hx => ?_⟩
    rw [List.mem_singleton.1 hx]
    exact (ho.total hacc hacc).elim id id
  | cons v vs ih =>
    obtain ⟨hv, hvs⟩ := List.forall_mem_cons.1 hvs
    obtain ⟨hpick, hleft, hright⟩ := hp hacc hv
    have hnum : (pick acc v.toNumber).isNaN = false := by
      rcases hpick with h | h
      · rwa [h]
      · rwa [h]
    obtain ⟨hmem, hlast⟩ := ih hnum hvs
    have hbelow := hlast _ List.mem_cons_self
    rw [gather, if_neg (Bool.not_eq_true _ ▸ hv), List.map_cons]
    constructor
    · rcases List.mem_cons.1 hmem with h | h
      · rw [h]
        rcases hpick with h | h <;> rw [h] <;> simp
      · exact List.mem_cons_of_mem _ (List.mem_cons_of_mem _ h)
    · intro x hx
      rcases List.mem_cons.1 hx with rfl | hx
      · exact ho.trans hleft hbelow
      rcases List.mem_cons.1 hx with rfl | hx
      · exact ho.trans hright hbelow
      · exact hlast x (List.mem_cons_of_mem _ hx)

/- Only the start itself comes before the start, so an empty list alone leaves it over. -/
theorem extreme_gather (ho : Orders below) (hp : Picks below pick) (hacc : acc.isNaN = false)
    (hstart : ∀ x, below x acc = true → x = acc) (hne : vs ≠ []) :
    Extreme below (vs.map Value.toNumber) (gather pick acc vs) := by
  by_cases h : ∃ v ∈ vs, v.toNumber.isNaN = true
  · rw [gather_of_nan h]
    refine ⟨?_, nofun, nofun⟩
    simpa [Binary64.isNaN] using h
  · have hvs : ∀ v ∈ vs, v.toNumber.isNaN = false := by simpa using h
    obtain ⟨hmem, hlast⟩ := gather_last ho hp hacc hvs
    have hin : gather pick acc vs ∈ vs.map Value.toNumber := by
      rcases List.mem_cons.1 hmem with he | he
      · obtain ⟨v, hv⟩ := List.exists_mem_of_ne_nil vs hne
        have hin := List.mem_map_of_mem (f := Value.toNumber) hv
        have hbelow := hlast _ (List.mem_cons_of_mem _ hin)
        rw [he] at hbelow ⊢
        rwa [← hstart _ hbelow]
      · exact he
    have hnum : ∀ x ∈ vs.map Value.toNumber, x.isNaN = false := List.forall_mem_map.2 hvs
    refine ⟨?_, fun _ => hin, fun _ x hx => hlast x (List.mem_cons_of_mem _ hx)⟩
    simpa [hnum _ hin] using hvs

/-- The function finds what comes last among the numbers that its arguments stand for, whatever
their order, and from the results for two parts of a list it finds the result for the whole. -/
structure Finds (f : Function) (below : Binary64 → Binary64 → Bool) : Prop where
  extreme :
    ∀ vs, vs ≠ [] → ∃ m, f.apply vs = .ok (.number m) ∧ Extreme below (vs.map Value.toNumber) m
  perm : ∀ vs ws, vs ≠ [] → vs.Perm ws →
    ∃ m n, f.apply vs = .ok (.number m) ∧ f.apply ws = .ok (.number n) ∧
      m.dropZeroSign = n.dropZeroSign
  append : ∀ vs ws, vs ≠ [] → ws ≠ [] →
    ∃ m n k l, f.apply vs = .ok (.number m) ∧ f.apply ws = .ok (.number n) ∧
      f.apply (vs ++ ws) = .ok (.number k) ∧ f.apply [.number m, .number n] = .ok (.number l) ∧
      k.dropZeroSign = l.dropZeroSign

theorem finds_of_extreme (ho : Orders below)
    (h : ∀ vs, vs ≠ [] → ∃ m, f.apply vs = .ok (.number m) ∧
      Extreme below (vs.map Value.toNumber) m) :
    f.Finds below where
  extreme := h
  perm vs ws hvs hp := by
    obtain ⟨m, hm, hmext⟩ := h vs hvs
    obtain ⟨n, hn, hnext⟩ := h ws fun he => hvs (he ▸ hp).eq_nil
    exact ⟨m, n, hm, hn, hmext.unique ho hnext fun x => (hp.map Value.toNumber).mem_iff⟩
  append vs ws hvs hws := by
    obtain ⟨m, hm, hmext⟩ := h vs hvs
    obtain ⟨n, hn, hnext⟩ := h ws hws
    obtain ⟨k, hk, hkext⟩ := h (vs ++ ws) (List.append_ne_nil_of_left_ne_nil hvs ws)
    obtain ⟨l, hl, hlext⟩ := h [.number m, .number n] (List.cons_ne_nil _ _)
    rw [List.map_append] at hkext
    exact ⟨m, n, k, l, hm, hn, hk, hl,
      hkext.unique ho (hmext.append ho hnext hlext) fun _ => Iff.rfl⟩

/-- MAX finds the largest and MIN the smallest of the numbers that their arguments stand for. -/
theorem max_min_find : max.Finds Binary64.le ∧ min.Finds fun x y => y.le x := by
  constructor
  · refine finds_of_extreme Binary64.orders_le fun vs hvs => ⟨_, rfl, ?_⟩
    exact extreme_gather Binary64.orders_le Binary64.picks_max rfl
      (fun _ => Binary64.eq_infinity_of_le) hvs
  · refine finds_of_extreme Binary64.orders_le.reverse fun vs hvs => ⟨_, rfl, ?_⟩
    exact extreme_gather Binary64.orders_le.reverse Binary64.picks_min rfl
      (fun _ => Binary64.eq_infinity_of_ge) hvs

example : max.apply [.boolean true, .text " 3 ", .number (.ofNat 2)] = .ok (.number (.ofNat 3)) ∧
    max.apply [.number (.ofNat 2), .text "3 pcs", .boolean true] = .ok (.number .nan) := by
  decide +kernel

end FieldFormula.Function
