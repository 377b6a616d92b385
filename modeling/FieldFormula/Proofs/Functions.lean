import FieldFormula.Function
import FieldFormula.Proofs.Readers

/-!
The built-in functions never miss an argument when their arity has been checked, and they
yield numbers or one of their arguments.
-/
namespace FieldFormula

def Function.Total (f : Function) : Prop :=
  ∀ vs : List Value, f.arity.admits vs.length = true → ∃ v, f.apply vs = .ok v

def Function.Selects (f : Function) : Prop :=
  ∀ vs v, f.apply vs = .ok v → (∃ n, v = .number n) ∨ v ∈ vs

namespace Function

theorem argument_eq_ok {args : List Value} {i : Nat} (name : String) (h : i < args.length) :
    argument name args i = .ok args[i] := by
  rw [argument, List.getElem?_eq_getElem h]

theorem onlyArgument_eq_ok {args : List Value} (name : String) (h : 0 < args.length) :
    onlyArgument name args = .ok args[0] := by
  cases args with
  | nil => cases h
  | cons v vs => rfl

theorem length_of_admits {least most : Nat} {n : Nat}
    (h : Arity.admits ⟨least, some most⟩ n = true) : least ≤ n ∧ n ≤ most := by
  simpa [Arity.admits] using h

theorem ofNumber_total (name : String) (f : Binary64 → Binary64) : (ofNumber name f).Total := by
  intro vs h
  have hn := (length_of_admits h).1
  exact ⟨.number (f vs[0].toNumber), by simp only [ofNumber, onlyArgument_eq_ok name hn]; rfl⟩

theorem if_total : if'.Total := by
  intro vs h
  have hn := (length_of_admits h).1
  have h₀ := argument_eq_ok "IF" (show 0 < vs.length by omega)
  have h₁ := argument_eq_ok "IF" (show 1 < vs.length by omega)
  have h₂ := argument_eq_ok "IF" (show 2 < vs.length by omega)
  exact ⟨_, by simp only [if', h₀, h₁, h₂]; rfl⟩

theorem ifGreater_total : ifGreater.Total := by
  intro vs h
  have hn := (length_of_admits h).1
  have h₀ := argument_eq_ok "IFGT" (show 0 < vs.length by omega)
  have h₁ := argument_eq_ok "IFGT" (show 1 < vs.length by omega)
  have h₂ := argument_eq_ok "IFGT" (show 2 < vs.length by omega)
  have h₃ := argument_eq_ok "IFGT" (show 3 < vs.length by omega)
  exact ⟨_, by simp only [ifGreater, h₀, h₁, h₂, h₃]; rfl⟩

theorem coalesce_total : coalesce.Total := by
  intro vs h
  have hn := (length_of_admits h).1
  have h₀ := argument_eq_ok "COALESCE" (show 0 < vs.length by omega)
  have h₁ := argument_eq_ok "COALESCE" (show 1 < vs.length by omega)
  exact ⟨_, by simp only [coalesce, h₀, h₁]; rfl⟩

theorem round_total : round.Total := by
  intro vs h
  have h₀ := onlyArgument_eq_ok "ROUND" (length_of_admits h).1
  exact ⟨_, by simp only [round, h₀]; rfl⟩

theorem len_total : len.Total := by
  intro vs h
  have h₀ := onlyArgument_eq_ok "LEN" (length_of_admits h).1
  exact ⟨_, by simp only [len, h₀]; rfl⟩

theorem max_total : max.Total := fun _ _ => ⟨_, rfl⟩

theorem min_total : min.Total := fun _ _ => ⟨_, rfl⟩

theorem mem_of_argument {name : String} {vs : List Value} {v : Value} {i : Nat}
    (h : argument name vs i = .ok v) : v ∈ vs := by
  rw [argument] at h
  split at h
  · next hv =>
    cases h
    exact List.mem_of_getElem? hv
  · cases h

theorem mem_ite {p : Prop} [Decidable p] {vs : List Value} {v w : Value} (hv : v ∈ vs)
    (hw : w ∈ vs) : (if p then v else w) ∈ vs := by
  split
  · exact hv
  · exact hw

/- The functions that ask for an only argument compute a number from it. -/
theorem number_of_onlyArgument {name : String} {vs : List Value} {v : Value}
    {f : Value → Binary64} (h : (onlyArgument name vs >>= fun w => pure (.number (f w))) = .ok v) :
    ∃ n, v = .number n := by
  obtain ⟨w, -, h⟩ := Expr.bind_eq_ok.1 h
  cases h
  exact ⟨_, rfl⟩

theorem ofNumber_selects (name : String) (f : Binary64 → Binary64) : (ofNumber name f).Selects :=
  fun _ _ h => Or.inl (number_of_onlyArgument h)

theorem if_selects : if'.Selects := by
  intro vs v h
  obtain ⟨c, -, h⟩ := Expr.bind_eq_ok.1 h
  obtain ⟨t, ht, h⟩ := Expr.bind_eq_ok.1 h
  obtain ⟨e, he, h⟩ := Expr.bind_eq_ok.1 h
  cases h
  exact Or.inr (mem_ite (mem_of_argument ht) (mem_of_argument he))

theorem ifGreater_selects : ifGreater.Selects := by
  intro vs v h
  obtain ⟨x, -, h⟩ := Expr.bind_eq_ok.1 h
  obtain ⟨y, -, h⟩ := Expr.bind_eq_ok.1 h
  obtain ⟨t, ht, h⟩ := Expr.bind_eq_ok.1 h
  obtain ⟨e, he, h⟩ := Expr.bind_eq_ok.1 h
  cases h
  exact Or.inr (mem_ite (mem_of_argument ht) (mem_of_argument he))

theorem coalesce_selects : coalesce.Selects := by
  intro vs v h
  obtain ⟨x, hx, h⟩ := Expr.bind_eq_ok.1 h
  obtain ⟨d, hd, h⟩ := Expr.bind_eq_ok.1 h
  cases h
  split
  · exact Or.inr (mem_ite (mem_of_argument hd) (mem_of_argument hx))
  · exact Or.inr (mem_of_argument hx)

theorem round_selects : round.Selects := fun _ _ h => Or.inl (number_of_onlyArgument h)

theorem len_selects : len.Selects := fun _ _ h => Or.inl (number_of_onlyArgument h)

theorem max_selects : max.Selects := fun _ _ h => Or.inl ⟨_, (Except.ok.inj h).symm⟩

theorem min_selects : min.Selects := fun _ _ h => Or.inl ⟨_, (Except.ok.inj h).symm⟩

end Function

namespace Registry

def All (P : Function → Prop) (r : Registry) : Prop := ∀ name f, r.find? name = some f → P f

theorem All.register {P : Function → Prop} {r : Registry} {f : Function} (h : All P r) (hf : P f) :
    All P (r.register f) := by
  intro name g hg
  rw [Registry.register, Table.find?_insert] at hg
  by_cases hn : name = key f.name
  · rw [if_pos hn] at hg
    cases hg
    exact hf
  · rw [if_neg hn] at hg
    exact h name g hg

theorem All.foldl_register {P : Function → Prop} {fs : List Function} {r : Registry} (h : All P r)
    (hfs : ∀ f ∈ fs, P f) : All P (fs.foldl Registry.register r) := by
  induction fs generalizing r with
  | nil => exact h
  | cons f fs ih =>
    obtain ⟨hf, hfs⟩ := List.forall_mem_cons.1 hfs
    exact ih (h.register hf) hfs

theorem builtin_total : All Function.Total builtin := by
  refine All.foldl_register (fun name f h => by cases h) ?_
  simp only [List.forall_mem_cons, List.not_mem_nil, false_implies, implies_true, and_true]
  exact ⟨Function.if_total, Function.ifGreater_total, Function.coalesce_total,
    Function.ofNumber_total _ _, Function.ofNumber_total _ _, Function.ofNumber_total _ _,
    Function.round_total, Function.max_total, Function.min_total, Function.ofNumber_total _ _,
    Function.len_total⟩

theorem builtin_selects : All Function.Selects builtin := by
  refine All.foldl_register (fun name f h => by cases h) ?_
  simp only [List.forall_mem_cons, List.not_mem_nil, false_implies, implies_true, and_true]
  exact ⟨Function.if_selects, Function.ifGreater_selects, Function.coalesce_selects,
    Function.ofNumber_selects _ _, Function.ofNumber_selects _ _, Function.ofNumber_selects _ _,
    Function.round_selects, Function.max_selects, Function.min_selects,
    Function.ofNumber_selects _ _, Function.len_selects⟩

end Registry
end FieldFormula
