/-
The encryption of a key depends on its position alone: a tree relabelled by a strictly increasing
function gives the image of a key the ciphertexts of the key.
-/
import Embark.Ope.Tree
import Embark.Tree.Relabel

namespace Embark

open BinTree

namespace OPETree

variable {α β : Type} [LinearOrder α] [LinearOrder β] {f : α → β}

theorem maxWalk_map (hf : StrictMono f) (v : α) :
    ∀ (t : BinTree α) (p : U128) (k : Nat) (max : Option (U128 × Nat)),
    maxWalk (f v) (t.map f) p k max = maxWalk v t p k max
  | nil, _, _, _ => rfl
  | node l x r, p, k, max => by
    simp only [map_node, maxWalk, hf.le_iff_le]
    split
    · exact maxWalk_map hf v r _ _ _
    · exact maxWalk_map hf v l _ _ _

theorem minWalk_map (hf : StrictMono f) (v : α) :
    ∀ (t : BinTree α) (p : U128) (k : Nat) (min : Option (U128 × Nat)),
    minWalk (f v) (t.map f) p k min = minWalk v t p k min
  | nil, _, _, _ => rfl
  | node l x r, p, k, min => by
    simp only [map_node, minWalk, hf.lt_iff_lt]
    split
    · exact minWalk_map hf v l _ _ _
    · exact minWalk_map hf v r _ _ _

theorem ciphertextRange_map (hf : StrictMono f) (t : ScapegoatTree α) (v : α) :
    ciphertextRange (t.map f) (f v) = ciphertextRange t v := by
  unfold ciphertextRange maxCiphertextLessEqualThan minCiphertextGreaterThan ScapegoatTree.map
  rw [maxWalk_map hf, minWalk_map hf]

end OPETree

end Embark
