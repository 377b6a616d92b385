import Mathlib.Data.List.TakeWhile
import FieldFormula.Expr
import FieldFormula.Proofs.TokenEnds
import FieldFormula.Proofs.Validation

/-!
Blanks between tokens. Wherever a token has ended, blanks may be put in without a change to the
tokens that the text is cut into, so both texts are the same expression or have the same error.
-/
namespace FieldFormula

namespace Token
variable {b cs r u v : List Char} {t : Token}

/-- The text `u ++ r` is cut where `r` begins: tokens stand before that place, and
then at most blanks. -/
inductive Boundary : List Char → List Char → Prop
  | blanks {b r : List Char} : (∀ c ∈ b, Text.isBlank c = true) → Boundary b r
  | token {u v r : List Char} {t : Token} :
      next? (u ++ (v ++ r)) = some (t, v ++ r) → Boundary v r → Boundary (u ++ v) r

theorem boundary_start (cs : List Char) : Boundary [] cs := .blanks (List.forall_mem_nil _)

theorem boundary_end (cs : List Char) : Boundary cs [] := by
  fun_induction scan cs with
  | case1 cs h =>
    refine .blanks fun c hc => ?_
    rw [next?] at h
    split at h
    · next hs => exact List.dropWhile_eq_nil_iff.1 hs c hc
    · cases h
  | case2 cs t rest h _ ih =>
    obtain ⟨u, rfl⟩ := next?_suffix h
    exact .token (by rwa [List.append_nil]) ih

theorem exists_boundary {ts us : List Token} (h : scan cs = ts ++ us) :
    ∃ u r, cs = u ++ r ∧ Boundary u r ∧ scan r = us := by
  induction ts generalizing cs with
  | nil => exact ⟨[], cs, rfl, boundary_start cs, h⟩
  | cons t ts ih =>
    cases hx : next? cs with
    | none =>
      rw [scan_of_next?_none hx] at h
      cases h
    | some x =>
      obtain ⟨t', rest⟩ := x
      rw [scan_of_next?_some hx] at h
      obtain ⟨u, r, rfl, hu, hr⟩ := ih (List.cons.inj h).2
      obtain ⟨w, rfl⟩ := next?_suffix hx
      exact ⟨w ++ u, r, (List.append_assoc ..).symm, .token hx hu, hr⟩

/- What the blanks do to the tokens next to them. -/

theorem scan_blanks (hb : ∀ c ∈ b, Text.isBlank c = true) (r : List Char) :
    scan (b ++ r) = scan r := by
  have hn : next? (b ++ r) = next? r := by
    rw [next?, next?, skipBlanks_blanks hb]
  cases hr : next? r with
  | none => rw [scan_of_next?_none hr, scan_of_next?_none (hn.trans hr)]
  | some x => rw [scan_of_next?_some hr, scan_of_next?_some (hn.trans hr)]

theorem opensCall_insert (hb : ∀ c ∈ b, Text.isBlank c = true) (v r : List Char) :
    opensCall (v ++ (b ++ r)) = opensCall (v ++ r) := by
  induction v with
  | nil => rw [List.nil_append, List.nil_append, opensCall, opensCall, skipBlanks_blanks hb]
  | cons c v ih =>
    rw [opensCall, opensCall, Text.skipBlanks, Text.skipBlanks] at ih ⊢
    by_cases hc : Text.isBlank c = true
    · rw [List.cons_append, List.cons_append, List.dropWhile_cons_of_pos hc,
        List.dropWhile_cons_of_pos hc, ih]
    · rw [List.cons_append, List.cons_append, List.dropWhile_cons_of_neg hc,
        List.dropWhile_cons_of_neg hc]
      rfl

theorem headLike_blanks (hb : ∀ c ∈ b, Text.isBlank c = true) (r : List Char) :
    HeadLike r (b ++ r) := by
  intro d hd
  cases b with
  | nil => exact Or.inl hd
  | cons c b =>
    cases hd
    exact Or.inr (hb d List.mem_cons_self)

theorem HeadLike.follows {r' : List Char} (h : HeadLike r r') (t : Token) : Follows t r r' :=
  fun d hd =>
  (h d hd).imp_right Or.inl

/- A text that is not closed takes all that follows, so blanks behind it are taken too. -/

theorem closeQuote_of_notMem {quote : Char} (h : quote ∉ cs) : closeQuote quote cs = none := by
  fun_induction closeQuote quote cs with
  | case1 => rfl
  | case2 => rfl
  | case3 c r ih =>
    rw [ih fun hq => h (List.mem_cons_of_mem _ (List.mem_cons_of_mem _ hq))]
    rfl
  | case4 r => exact absurd List.mem_cons_self h
  | case5 c r _ _ _ ih =>
    rw [ih fun hq => h (List.mem_cons_of_mem _ hq)]
    rfl

theorem closeQuote_append_of_notMem {quote : Char} (h : closeQuote quote cs = none)
    (hb : quote ∉ b) : closeQuote quote (cs ++ b) = none := by
  fun_induction closeQuote quote cs with
  | case1 => exact closeQuote_of_notMem hb
  | case2 =>
    cases b with
    | nil => rfl
    | cons c b =>
      rw [List.singleton_append, closeQuote,
        closeQuote_of_notMem fun hq => hb (List.mem_cons_of_mem _ hq)]
      rfl
  | case3 c r ih =>
    rw [List.cons_append, List.cons_append, closeQuote, ih (Option.map_eq_none_iff.1 h)]
    rfl
  | case4 r => cases h
  | case5 c r hnil hcons hq ih =>
    rw [List.cons_append, closeQuote_of_ne (ne_backslash hnil hcons), if_neg hq,
      ih (Option.map_eq_none_iff.1 h)]
    rfl

theorem scanFrom_openText {c : Char} (h : scanFrom c cs = (.invalid .openText, r)) :
    (c = '"' ∨ c = '\'') ∧ closeQuote c cs = none ∧ r = [] := by
  rw [scanFrom.eq_def] at h
  split at h
  case h_23 =>
    split at h
    · next hq =>
      rw [scanText] at h
      split at h
      · cases h
      · next hc =>
        cases h
        exact ⟨by simpa using hq, hc, rfl⟩
    · split at h
      · have hn := congrArg Prod.fst h
        rw [scanNumber] at hn
        dsimp only at hn
        split at hn <;> cases hn
      · split at h
        · have hw := congrArg Prod.fst h
          rw [scanWord] at hw
          dsimp only at hw
          split at hw
          · cases hw
          · split at hw <;> cases hw
        · cases h
  all_goals cases h

theorem next?_openText (h : next? u = some (.invalid .openText, r))
    (hb : ∀ c ∈ b, Text.isBlank c = true) :
    r = [] ∧ next? (u ++ b) = some (.invalid .openText, []) := by
  obtain ⟨w, rfl⟩ := next?_suffix h
  obtain ⟨b', c, w, rfl, hb', hc, hs⟩ := next?_split h
  obtain ⟨hq, hn, rfl⟩ := scanFrom_openText hs
  have hm : c ∉ b := fun hm => by
    rw [hb c hm] at hc
    cases hc
  have hn' := closeQuote_append_of_notMem hn hm
  refine ⟨rfl, next?_eq_some.2 ⟨c, w ++ b, ?_, ?_⟩⟩
  · rw [List.append_nil, List.append_assoc, List.cons_append, skipBlanks_append hb' hc]
  · rw [List.append_nil] at hn'
    rcases hq with rfl | rfl <;> simp [scanFrom, scanText, hn']

theorem scan_insert (h : Boundary u r) (hb : ∀ c ∈ b, Text.isBlank c = true) :
    scan (u ++ (b ++ r)) = scan (u ++ r) := by
  induction h with
  | blanks hu => rw [scan_blanks hu, scan_blanks hu, scan_blanks hb]
  | @token u v r t hn hv ih =>
    rw [List.append_assoc, List.append_assoc]
    by_cases ht : t = .invalid .openText
    · subst ht
      obtain ⟨hr, hn'⟩ := next?_openText hn hb
      obtain ⟨rfl, rfl⟩ := List.append_eq_nil_iff.1 hr
      simp only [List.append_nil, List.nil_append] at hn hn' ⊢
      rw [scan_of_next?_some hn, scan_of_next?_some hn']
    · have hf : Follows t (v ++ r) (v ++ (b ++ r)) := ((headLike_blanks hb r).append v).follows t
      rw [scan_of_next?_some hn,
        scan_of_next?_some (next?_append hn ht (opensCall_insert hb v r) hf), ih]

end Token

namespace Expr
open Token

/-- Blanks may stand at the start and at the end of a formula and between any two of its tokens, and
however many are put in there, the formula is the same expression or has the same error. -/
theorem parse_insert_blanks :
    (∀ cs, Boundary [] cs ∧ Boundary cs []) ∧
    (∀ cs ts us, scan cs = ts ++ us → ∃ u r, cs = u ++ r ∧ Boundary u r ∧ scan r = us) ∧
    (∀ u r b, Boundary u r → (∀ c ∈ b, Text.isBlank c = true) →
      parse (String.ofList (u ++ (b ++ r))) = parse (String.ofList (u ++ r))) := by
  refine ⟨fun cs => ⟨boundary_start cs, boundary_end cs⟩, fun cs ts us h => exists_boundary h, ?_⟩
  intro u r b h hb
  rw [parse, parse, String.toList_ofList, String.toList_ofList, scan_insert h hb]

theorem parse_insert_blanks_of_call :
    parse "true(x)" = .ok (.call "true" [.field "x"]) ∧
    parse "true\u3000\n(x)" = .ok (.call "true" [.field "x"]) ∧
      parse "x&y" = .error (.fault (.loneMark '&')) ∧
      parse "x& y" = .error (.fault (.loneMark '&')) := by
  obtain ⟨-, -, insert⟩ := parse_insert_blanks
  have hcall : parse "true(x)" = .ok (.call "true" [.field "x"]) := by
    have hs : scanWithin 7 "true(x)".toList = [.word "true", .openParen, .word "x",
        .closeParen] := by decide +kernel
    rw [Formula.parse_eq_of_scanWithin (by decide) hs]
    cbv
  have hmark : parse "x&y" = .error (.fault (.loneMark '&')) := by
    have hs : scanWithin 3 "x&y".toList = [.word "x", .invalid (.loneMark '&'), .word "y"] := by
      decide +kernel
    rw [Formula.parse_eq_of_scanWithin (by decide) hs]
    cbv
  have htrue : Boundary "true".toList "(x)".toList :=
    .token (u := "true".toList) (v := []) (t := .word "true") (by decide +kernel) (boundary_start _)
  have hfault : Boundary "x&".toList "y".toList :=
    .token (u := ['x']) (v := ['&']) (t := .word "x") (by decide +kernel)
      (.token (u := ['&']) (v := []) (t := .invalid (.loneMark '&')) (by decide +kernel)
        (boundary_start _))
  have hi := insert _ _ "\u3000\n".toList htrue (List.all_eq_true.1 (by decide))
  have hi' := insert _ _ [' '] hfault (List.forall_mem_singleton.2 rfl)
  exact ⟨hcall, hi.trans hcall, hmark, hi'.trans hmark⟩

end Expr
end FieldFormula
