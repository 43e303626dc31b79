import HuffmanCoding.Codebook
import Mathlib.Data.List.Sort

/-!
# The order of tokens

The escape comes first and the symbols follow in their own order, which makes a linear order of
tokens. So rows have only one order if no token has two of them: it does not matter in which order
they were given (`Codebook.sorted_eq_of_perm`).
-/

set_option autoImplicit false
set_option relaxedAutoImplicit false

namespace HuffmanCoding

variable {S : Type} [Symbol S]

namespace Token

theorem precedes_total (first second : Token S) :
    (first.precedes second || second.precedes first) = true := by
  cases first with
  | escape => rfl
  | symbol first =>
    cases second with
    | escape => rfl
    | symbol second =>
      have hswap : compare second first = (compare first second).swap := Std.OrientedOrd.eq_swap
      rw [precedes, precedes, hswap]
      cases compare first second <;> rfl

theorem precedes_trans {first second third : Token S} (hfirst : first.precedes second = true)
    (hsecond : second.precedes third = true) : first.precedes third = true := by
  match first, second, third with
  | escape, _, _ => rfl
  | symbol _, escape, _ => cases hfirst
  | symbol _, symbol _, escape => cases hsecond
  | symbol _, symbol _, symbol _ => exact Std.TransCmp.isLE_trans hfirst hsecond

theorem precedes_antisymm {first second : Token S} (hfirst : first.precedes second = true)
    (hsecond : second.precedes first = true) : first = second := by
  match first, second with
  | escape, escape => rfl
  | escape, symbol _ => cases hsecond
  | symbol _, escape => cases hfirst
  | symbol first, symbol second =>
    exact congrArg symbol (Std.LawfulEqCmp.compare_eq_iff_eq.mp
      (Std.OrientedCmp.isLE_antisymm hfirst hsecond))

end Token

namespace Codebook

/-- Sorted rows are in the order of their tokens. -/
theorem pairwise_sorted (rows : List (CodeRow S)) :
    (sorted rows).Pairwise fun first second ↦ first.token.precedes second.token = true := by
  refine List.pairwise_mergeSort (fun first second third hfirst hsecond ↦ ?_)
    (fun first second ↦ ?_) rows
  · exact Token.precedes_trans hfirst hsecond
  · exact Token.precedes_total first.token second.token

/-- If no token has two rows, the order in which rows are given does not matter. -/
theorem sorted_eq_of_perm {rows others : List (CodeRow S)} (hperm : others.Perm rows)
    (hnodup : (rows.map (·.token)).Nodup) : sorted others = sorted rows := by
  have hrows : (sorted rows).Perm rows := List.mergeSort_perm _ _
  have hothers : (sorted others).Perm rows := (List.mergeSort_perm _ _).trans hperm
  refine List.Perm.eq_of_pairwise (fun first second hfirst hsecond hforth hback ↦ ?_)
    (pairwise_sorted others) (pairwise_sorted rows) (hothers.trans hrows.symm)
  exact List.inj_on_of_nodup_map hnodup (hothers.mem_iff.mp hfirst) (hrows.mem_iff.mp hsecond)
    (Token.precedes_antisymm hforth hback)

end Codebook

end HuffmanCoding
