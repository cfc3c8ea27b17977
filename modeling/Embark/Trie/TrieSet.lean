/-
`TrieSet`: a trie of byte strings with a data pointer on each. It is a finite map on a sequence of
insertions only where distinct labels differ in their first byte, no label has a zero before its
last byte, and no label comes with data; `insertions_correct_iff` is both directions.
-/
import Embark.Lib.Bytes
import Mathlib.Data.List.Find

namespace Embark

/-- `strncmp`: the first difference within `n` bytes, none past a zero byte. -/
def strncmp : List Byte → List Byte → Nat → Int
  | a :: as, b :: bs, n + 1 =>
    if a ≠ b then (a.toNat : Int) - b.toNat else if a = 0 then 0 else strncmp as bs n
  | _, _, _ => 0

/-- `trienode_st`. The label of length zero is the null one. -/
structure TrieNode (α : Type) where
  babies : Byte → Option (TrieNode α)
  relatedData : Option α
  depth : BitVec 8
  label : List Byte

/-- The arguments of an insertion. -/
structure Insertion (α : Type) where
  label : List Byte
  relatedData : Option α

namespace TrieNode

variable {α : Type}

/-- The root of an empty `TrieSet`. -/
def root : TrieNode α := ⟨fun _ => none, none, 0, []⟩

def labellen (n : TrieNode α) : Nat := n.label.length

/-- `n->babies[b] = baby`. -/
def setBaby (n : TrieNode α) (b : Byte) (baby : TrieNode α) : TrieNode α :=
  { n with babies := fun k => if k = b then some baby else n.babies k }

/-- `getNode`. -/
def getNode (cur : TrieNode α) : List Byte → TrieNode α
  | [] => cur
  | b :: rest =>
    match cur.babies b with
    | none => cur
    | some n => getNode n rest

/-- The trie after a change of the node that `getNode` returns. -/
def modifyNode (f : TrieNode α → TrieNode α) (cur : TrieNode α) : List Byte → TrieNode α
  | [] => f cur
  | b :: rest =>
    match cur.babies b with
    | none => f cur
    | some n => cur.setBaby b (modifyNode f n rest)

/-- `contains`. -/
def contains (t : TrieNode α) (label : List Byte) : Bool :=
  let n := t.getNode label
  if n.labellen = 0 ∨ n.labellen ≠ label.length then false else strncmp label n.label label.length = 0

/-- `get_related_data`. -/
def getRelatedData (t : TrieNode α) (label : List Byte) : Option α := (t.getNode label).relatedData

/-- The new nodes of an insertion at `cur`, where `b` is the byte of the label at its depth. -/
def split (label : List Byte) (relatedData : Option α) (b : Byte) (cur : TrieNode α) : TrieNode α :=
  let cur := cur.setBaby b ⟨fun _ => none, relatedData, cur.depth + 1, label⟩
  if cur.labellen ≠ 0 then
    let bumpdownnode : TrieNode α := ⟨fun _ => none, cur.relatedData, cur.depth + 1, cur.label⟩
    -- the slot is that of the new label's byte, so the new node is lost
    setBaby { cur with label := [], relatedData := none } b bumpdownnode
  else cur

/-- `if_not_contains_then_insert`. Reading the label past its end is `none`. -/
def ifNotContainsThenInsert (t : TrieNode α) (op : Insertion α) : Option (Bool × TrieNode α) :=
  let cur := t.getNode op.label
  if cur.labellen = op.label.length ∧ strncmp op.label cur.label op.label.length = 0 then some (false, t)
  else
    -- the byte at the depth of `cur`, which may be the label's length
    match op.label[cur.depth.toNat]? with
    | none => none
    | some b => some (true, t.modifyNode (split op.label op.relatedData b) op.label)

/-! ## What a run is to do -/

/-- The labels that insertions and lookups are for. -/
def ValidLabel (label : List Byte) : Prop := label ≠ [] ∧ label.length < 256

/-- The first insertion of a label. -/
def firstInsertion (done : List (Insertion α)) (label : List Byte) : Option (Insertion α) :=
  done.find? (·.label = label)

/-- The trie is the finite map that the insertions `done` make. -/
def Represents (t : TrieNode α) (done : List (Insertion α)) : Prop :=
  ∀ label, ValidLabel label → (t.contains label ↔ ∃ op ∈ done, op.label = label) ∧
    t.getRelatedData label = (firstInsertion done label).bind (·.relatedData)

/-- A run of insertions from the trie after `done`: the trie represents its insertions at every
point, and each insertion returns whether its label is new. -/
def CorrectRun (done : List (Insertion α)) (t : TrieNode α) : List (Insertion α) → Prop
  | [] => t.Represents done
  | op :: ops => t.Represents done ∧ ∃ new t', t.ifNotContainsThenInsert op = some (new, t') ∧
      (new ↔ ¬∃ op' ∈ done, op'.label = op.label) ∧ CorrectRun (done ++ [op]) t' ops

/-- Distinct labels have distinct first bytes. -/
def FirstBytes (ops : List (Insertion α)) : Prop :=
  ∀ a ∈ ops, ∀ b ∈ ops, a.label.head? = b.label.head? → a.label = b.label

/-- No label has a zero byte before its last byte. -/
def NoInnerZero (ops : List (Insertion α)) : Prop := ∀ a ∈ ops, 0 ∉ a.label.dropLast

/-- The first insertion of every label is with the null pointer. -/
def NullData (ops : List (Insertion α)) : Prop :=
  ∀ label op, firstInsertion ops label = some op → op.relatedData = none

/-! ## Comparison -/

theorem strncmp_cons (x y : Byte) (a b : List Byte) (n : Nat) : strncmp (x :: a) (y :: b) (n + 1) =
    if x ≠ y then (x.toNat : Int) - y.toNat else if x = 0 then 0 else strncmp a b n := rfl

theorem strncmp_self : ∀ (a : List Byte) (n : Nat), strncmp a a n = 0
  | [], _ => by simp [strncmp]
  | _ :: _, 0 => rfl
  | x :: a, n + 1 => by
    rw [strncmp_cons, if_neg (not_not.2 rfl), strncmp_self a n, ite_self]

/-- Without a zero before the last byte the comparison is of all bytes. -/
theorem eq_of_strncmp : ∀ {a b : List Byte}, a.length = b.length → 0 ∉ b.dropLast →
    strncmp a b a.length = 0 → a = b
  | [], [], _, _, _ => rfl
  | x :: a, y :: b, hlen, hzero, h => by
    rw [List.length_cons, strncmp_cons] at h
    by_cases hxy : x = y
    · subst hxy
      rw [List.length_cons, List.length_cons, Nat.add_right_cancel_iff] at hlen
      rw [if_neg (not_not.2 rfl)] at h
      congr 1
      cases b with
      | nil => exact List.length_eq_zero_iff.1 hlen
      | cons z b =>
        rw [List.dropLast_cons_cons, List.mem_cons, not_or] at hzero
        rw [if_neg (Ne.symm hzero.1)] at h
        exact eq_of_strncmp hlen hzero.2 h
    · rw [if_pos hxy] at h
      exact absurd (BitVec.eq_of_toNat_eq (by omega)) hxy

/-- Past an inner zero byte the comparison sees no difference. -/
theorem exists_strncmp_eq_zero : ∀ {b : List Byte}, 0 ∈ b.dropLast →
    ∃ a, a.length = b.length ∧ a.head? = b.head? ∧ strncmp a b a.length = 0 ∧ a ≠ b
  | [], h => absurd h (by simp)
  | [_], h => absurd h (by simp)
  | x :: y :: b, h => by
    rw [List.dropLast_cons_cons, List.mem_cons] at h
    by_cases hx : x = 0
    · refine ⟨x :: (y + 1) :: b, rfl, rfl, ?_, fun heq => ?_⟩
      · rw [List.length_cons, strncmp_cons, if_neg (not_not.2 rfl), if_pos hx]
      · have hy : y + 1 = y := by
          injection heq with _ heq
          injection heq
        exact absurd hy (by simp)
    · obtain ⟨a, hlen, -, hcmp, hne⟩ := exists_strncmp_eq_zero (h.resolve_left (Ne.symm hx))
      refine ⟨x :: a, congrArg (· + 1) hlen, rfl, ?_, ?_⟩
      · rw [List.length_cons, strncmp_cons, if_neg (not_not.2 rfl), if_neg hx]
        exact hcmp
      · intro heq
        injection heq with _ heq
        exact hne heq

/-! ## Flat tries -/

/-- The node of an insertion at the root. -/
def leaf (op : Insertion α) : TrieNode α := ⟨fun _ => none, op.relatedData, 1, op.label⟩

/-- The first insertion of a label that starts with `b`. -/
def byFirstByte (done : List (Insertion α)) (b : Byte) : Option (Insertion α) :=
  done.find? (·.label.head? = some b)

/-- The trie after insertions whose labels have distinct first bytes: all nodes are at the root. -/
def flat (done : List (Insertion α)) : TrieNode α := ⟨fun b => (byFirstByte done b).map leaf, none, 0, []⟩

section Flat

variable {done : List (Insertion α)} {op : Insertion α} {b : Byte} {rest : List Byte}

@[simp] theorem getNode_leaf (op : Insertion α) (label : List Byte) : (leaf op).getNode label = leaf op := by
  cases label <;> rfl

theorem getNode_flat (b : Byte) (rest : List Byte) :
    (flat done).getNode (b :: rest) = ((byFirstByte done b).map leaf).getD (flat done) := by
  rw [getNode]
  cases h : byFirstByte done b with
  | none => simp [flat, h]
  | some op => simp [flat, h]

theorem mem_of_byFirstByte (h : byFirstByte done b = some op) : op ∈ done ∧ op.label.head? = some b :=
  ⟨List.mem_of_find?_eq_some h, by simpa using List.find?_some h⟩

theorem byFirstByte_of_mem (h : op ∈ done) (hb : op.label.head? = some b) :
    ∃ op', byFirstByte done b = some op' := by
  rw [← Option.isSome_iff_exists, byFirstByte, List.find?_isSome]
  exact ⟨op, h, by simpa using hb⟩

theorem byFirstByte_append (done ops : List (Insertion α)) (b : Byte) :
    byFirstByte (done ++ ops) b = (byFirstByte done b).or (byFirstByte ops b) := List.find?_append

@[simp] theorem byFirstByte_singleton (op : Insertion α) (b : Byte) :
    byFirstByte [op] b = if op.label.head? = some b then some op else none := by
  by_cases h : op.label.head? = some b <;> simp [byFirstByte, h]

theorem firstInsertion_append (done ops : List (Insertion α)) (label : List Byte) :
    firstInsertion (done ++ ops) label = (firstInsertion done label).or (firstInsertion ops label) :=
  List.find?_append

/-- With distinct first bytes, the first insertion by first byte is the first insertion of its
label. -/
theorem firstInsertion_of_byFirstByte (hd : FirstBytes done) (h : byFirstByte done b = some op) :
    firstInsertion done op.label = some op := by
  obtain ⟨hmem, hhead⟩ := mem_of_byFirstByte h
  rw [← h, firstInsertion, byFirstByte]
  refine List.find?_congr fun a ha => ?_
  have hiff : a.label = op.label ↔ a.label.head? = some b := by
    constructor
    · intro heq
      rw [heq, hhead]
    · intro hb
      exact hd a ha op hmem (by rw [hb, hhead])
  simp [hiff]

theorem firstInsertion_eq_none {label : List Byte} (h : ¬∃ op ∈ done, op.label = label) :
    firstInsertion done label = none := by
  rw [firstInsertion, List.find?_eq_none]
  intro op hop
  simpa using fun heq => h ⟨op, hop, heq⟩

theorem contains_flat_none (h : byFirstByte done b = none) : (flat done).contains (b :: rest) = false := by
  unfold contains
  rw [getNode_flat, h]
  rfl

theorem contains_flat_some (h : byFirstByte done b = some op) :
    (flat done).contains (b :: rest) ↔
      op.label.length = (b :: rest).length ∧ strncmp (b :: rest) op.label (b :: rest).length = 0 := by
  have hpos : op.label.length ≠ 0 := by
    have := (mem_of_byFirstByte h).2
    cases hl : op.label with
    | nil => rw [hl] at this; exact absurd this (by simp)
    | cons => simp
  unfold contains
  rw [getNode_flat, h]
  simp only [Option.map_some, Option.getD_some, leaf, labellen, hpos, false_or]
  by_cases hlen : op.label.length = (b :: rest).length
  · simp only [hlen, ne_eq, not_true_eq_false, if_false, true_and]
    exact decide_eq_true_iff
  · simp only [hlen, ne_eq, not_false_eq_true, if_true, false_and, Bool.false_eq_true]

theorem getRelatedData_flat :
    (flat done).getRelatedData (b :: rest) = (byFirstByte done b).bind (·.relatedData) := by
  unfold getRelatedData
  rw [getNode_flat]
  cases byFirstByte done b <;> rfl

/-- With distinct first bytes, the insertion in the slot of an inserted label has that label. -/
theorem label_of_byFirstByte {op' : Insertion α} (hd : FirstBytes done) (hb : byFirstByte done b = some op')
    (hop : op ∈ done) (hhead : op.label.head? = some b) : op'.label = op.label := by
  obtain ⟨hmem, hhead'⟩ := mem_of_byFirstByte hb
  exact hd op' hmem op hop (by rw [hhead', hhead])

/-- A label with an inner zero byte is found under another label. -/
theorem noInnerZero_of_represents (hd : FirstBytes done) (hv : ∀ op ∈ done, ValidLabel op.label)
    (h : (flat done).Represents done) : NoInnerZero done := by
  intro op hop hzero
  obtain ⟨a, hlen, hhead, hcmp, hne⟩ := exists_strncmp_eq_zero hzero
  have hva : ValidLabel a := by
    refine ⟨?_, hlen ▸ (hv op hop).2⟩
    rintro rfl
    exact (hv op hop).1 (List.length_eq_zero_iff.1 hlen.symm)
  obtain ⟨b, rest, rfl⟩ := List.exists_cons_of_ne_nil hva.1
  obtain ⟨op', hb⟩ := byFirstByte_of_mem hop hhead.symm
  have hcontains : (flat done).contains (b :: rest) := by
    rw [contains_flat_some hb, label_of_byFirstByte hd hb hop hhead.symm]
    exact ⟨hlen.symm, hcmp⟩
  obtain ⟨op₂, hop₂, heq⟩ := (h _ hva).1.1 hcontains
  exact hne (heq ▸ hd op₂ hop₂ op hop (by rw [heq, hhead]))

/-- Some label with the first byte of another one is different from it. -/
theorem exists_other_label (b : Byte) (rest : List Byte) : ∃ rest', rest' ≠ rest ∧ ValidLabel (b :: rest') := by
  cases rest with
  | nil => exact ⟨[0], by simp, by simp [ValidLabel]⟩
  | cons c rest => exact ⟨[], by simp, by simp [ValidLabel]⟩

/-- The data of a label is returned for the other labels with its first byte. -/
theorem nullData_of_represents (hd : FirstBytes done) (hv : ∀ op ∈ done, ValidLabel op.label)
    (h : (flat done).Represents done) : NullData done := by
  intro label op hfirst
  have hop : op ∈ done := List.mem_of_find?_eq_some hfirst
  obtain rfl : op.label = label := by simpa using List.find?_some hfirst
  obtain ⟨b, rest, hlabel⟩ := List.exists_cons_of_ne_nil (hv op hop).1
  have hhead : op.label.head? = some b := by rw [hlabel]; rfl
  obtain ⟨op', hb⟩ := byFirstByte_of_mem hop hhead
  obtain rfl : op' = op := by
    have hself := firstInsertion_of_byFirstByte hd hb
    rw [label_of_byFirstByte hd hb hop hhead, hfirst] at hself
    exact (Option.some.inj hself).symm
  obtain ⟨rest', hne, hvalid⟩ := exists_other_label b rest
  have hnever : ¬∃ op₂ ∈ done, op₂.label = b :: rest' := by
    rintro ⟨op₂, hop₂, heq⟩
    have hsame := hd op₂ hop₂ op' hop (by rw [heq, hhead]; rfl)
    rw [heq, hlabel] at hsame
    exact hne (List.cons.inj hsame).2
  have hdata := (h (b :: rest') hvalid).2
  rw [getRelatedData_flat, hb, firstInsertion_eq_none hnever] at hdata
  exact hdata

theorem represents_flat (hd : FirstBytes done) (hzero : NoInnerZero done) (hnull : NullData done) :
    (flat done).Represents done := by
  intro label hvalid
  obtain ⟨b, rest, rfl⟩ := List.exists_cons_of_ne_nil hvalid.1
  have hbind : (firstInsertion done (b :: rest)).bind (·.relatedData) = none := by
    cases hf : firstInsertion done (b :: rest) with
    | none => rfl
    | some op => exact hnull _ _ hf
  rw [hbind, getRelatedData_flat]
  cases hb : byFirstByte done b with
  | none =>
    rw [contains_flat_none hb]
    refine ⟨⟨fun h => absurd h (by simp), ?_⟩, rfl⟩
    rintro ⟨op, hop, hlabel⟩
    obtain ⟨op', hb'⟩ := byFirstByte_of_mem (b := b) hop (by rw [hlabel]; rfl)
    rw [hb] at hb'
    cases hb'
  | some op =>
    obtain ⟨hmem, hhead⟩ := mem_of_byFirstByte hb
    refine ⟨?_, hnull _ _ (firstInsertion_of_byFirstByte hd hb)⟩
    rw [contains_flat_some hb]
    constructor
    · rintro ⟨hlen, hcmp⟩
      exact ⟨op, hmem, (eq_of_strncmp hlen.symm (hzero op hmem) hcmp).symm⟩
    · rintro ⟨op', hop', hlabel⟩
      rw [label_of_byFirstByte hd hb hop' (by rw [hlabel]; rfl), hlabel]
      exact ⟨rfl, strncmp_self ..⟩

/-- Where a flat trie is the map of its insertions. -/
theorem represents_flat_iff (hd : FirstBytes done) (hv : ∀ op ∈ done, ValidLabel op.label) :
    (flat done).Represents done ↔ NoInnerZero done ∧ NullData done := by
  constructor
  · intro h
    exact ⟨noInnerZero_of_represents hd hv h, nullData_of_represents hd hv h⟩
  · rintro ⟨hzero, hnull⟩
    exact represents_flat hd hzero hnull

/-! ## Insertion into a flat trie -/

theorem insert_flat_new (hlabel : op.label = b :: rest) (hb : byFirstByte done b = none) :
    (flat done).ifNotContainsThenInsert op = some (true, flat (done ++ [op])) := by
  have hnode : (flat done).getNode op.label = flat done := by
    rw [hlabel, getNode_flat, hb]
    rfl
  have hmodify : (flat done).modifyNode (split op.label op.relatedData b) op.label =
      split op.label op.relatedData b (flat done) := by
    rw [hlabel, modifyNode]
    simp [flat, hb]
  have hsplit : split op.label op.relatedData b (flat done) = flat (done ++ [op]) := by
    have hbabies : ∀ k, (if k = b then some (leaf op) else (byFirstByte done k).map leaf) =
        (byFirstByte (done ++ [op]) k).map leaf := by
      intro k
      rw [byFirstByte_append]
      by_cases hk : k = b
      · subst hk
        simp [hb, hlabel]
      · simp [hk, hlabel, Ne.symm hk]
    have hlen : (flat done).labellen = 0 := rfl
    unfold split
    simp only [setBaby, labellen, flat, List.length_nil, ne_eq, not_true_eq_false, if_false, TrieNode.mk.injEq]
    refine ⟨funext fun k => hbabies k, trivial, trivial, trivial⟩
  unfold ifNotContainsThenInsert
  dsimp only
  rw [hnode, if_neg]
  · have hget : op.label[(flat done).depth.toNat]? = some b := by
      rw [hlabel]
      rfl
    rw [hget]
    dsimp only
    rw [hmodify, hsplit]
  · rintro ⟨hlen, -⟩
    rw [hlabel] at hlen
    exact absurd hlen (by simp [flat, labellen])

theorem insert_flat_old {op' : Insertion α} (hlabel : op.label = b :: rest) (hb : byFirstByte done b = some op')
    (heq : op'.label = op.label) :
    (flat done).ifNotContainsThenInsert op = some (false, flat done) := by
  unfold ifNotContainsThenInsert
  dsimp only
  have hnode : (flat done).getNode op.label = leaf op' := by
    rw [hlabel, getNode_flat, hb]
    rfl
  rw [hnode, if_pos]
  refine ⟨congrArg List.length heq, ?_⟩
  rw [show (leaf op').label = op.label from heq]
  exact strncmp_self ..

theorem flat_append_old {op' : Insertion α} (hlabel : op.label = b :: rest) (hb : byFirstByte done b = some op') :
    flat (done ++ [op]) = flat done := by
  unfold flat
  congr 1
  funext k
  rw [byFirstByte_append]
  by_cases hk : k = b
  · rw [hk, hb]
    rfl
  · simp [hlabel, Ne.symm hk]

/-- A new label in the slot of another one is lost where the insertion says it is new: the old node
moves down and takes the new one's place. -/
theorem insert_flat_other {op' : Insertion α} {t' : TrieNode α} (hlabel : op.label = b :: rest)
    (hb : byFirstByte done b = some op') (h : (flat done).ifNotContainsThenInsert op = some (true, t')) :
    t'.contains op.label = false := by
  have hnode : (flat done).getNode op.label = leaf op' := by
    rw [hlabel, getNode_flat, hb]
    rfl
  unfold ifNotContainsThenInsert at h
  dsimp only at h
  rw [hnode] at h
  split at h
  · cases h
  · rename_i hdiff
    have hdepth : (leaf op').depth.toNat = 1 := rfl
    rw [hdepth, hlabel] at h
    cases rest with
    | nil => cases h
    | cons c rest =>
      injection h with h
      injection h with _ h
      have hpos : op'.label.length ≠ 0 := by
        intro hzero
        have hhead := (mem_of_byFirstByte hb).2
        rw [List.length_eq_zero_iff.1 hzero] at hhead
        exact absurd hhead (by simp)
      -- the node in the slot has given its label to the node below it
      have hbaby : (flat done).babies b = some (leaf op') := by simp [flat, hb]
      have hbump : (t'.getNode op.label).label = op'.label := by
        rw [← h, hlabel]
        cases rest <;> simp [modifyNode, hbaby, getNode, setBaby, split, leaf, labellen, hpos]
      unfold contains
      simp only [labellen, hbump]
      by_cases hlen : op'.label.length = op.label.length
      · have hcmp : strncmp op.label op'.label op.label.length ≠ 0 := fun hcmp => hdiff ⟨hlen, hcmp⟩
        simp [hcmp]
      · simp [hlen]

theorem NullData.append_left {ops : List (Insertion α)} (h : NullData (done ++ ops)) : NullData done := by
  intro label op hfirst
  apply h label op
  rw [firstInsertion_append, hfirst]
  rfl

/-- A label whose first byte no other label has keeps the first bytes distinct. -/
theorem FirstBytes.append_singleton (hd : FirstBytes done)
    (h : ∀ op' ∈ done, op'.label.head? = op.label.head? → op'.label = op.label) : FirstBytes (done ++ [op]) := by
  intro a ha b hb hhead
  rw [List.mem_append, List.mem_singleton] at ha hb
  rcases ha with ha | rfl
  · rcases hb with hb | rfl
    · exact hd a ha b hb hhead
    · exact h a ha hhead
  · rcases hb with hb | rfl
    · exact (h b hb hhead.symm).symm
    · rfl

/-- A label that shares its slot with no other one: the trie stays flat, and the insertion returns
whether the label is new. -/
theorem insert_flat (hv : ValidLabel op.label)
    (h : ∀ op' ∈ done, op'.label.head? = op.label.head? → op'.label = op.label) :
    ∃ new, (flat done).ifNotContainsThenInsert op = some (new, flat (done ++ [op])) ∧
      (new ↔ ¬∃ op' ∈ done, op'.label = op.label) := by
  obtain ⟨b, rest, hlabel⟩ := List.exists_cons_of_ne_nil hv.1
  have hhead : op.label.head? = some b := by rw [hlabel]; rfl
  cases hb : byFirstByte done b with
  | none =>
    refine ⟨true, insert_flat_new hlabel hb, iff_of_true rfl ?_⟩
    rintro ⟨op', hop', heq⟩
    obtain ⟨op₂, hb₂⟩ := byFirstByte_of_mem hop' ((congrArg List.head? heq).trans hhead)
    rw [hb] at hb₂
    cases hb₂
  | some op' =>
    obtain ⟨hmem, hhead'⟩ := mem_of_byFirstByte hb
    have heq : op'.label = op.label := h op' hmem (hhead'.trans hhead.symm)
    refine ⟨false, ?_, iff_of_false (by simp) (not_not.2 ⟨op', hmem, heq⟩)⟩
    rw [flat_append_old hlabel hb]
    exact insert_flat_old hlabel hb heq

/-- No run is correct that inserts a label into the slot of another one: the new one is lost, or it
is read past its end. -/
theorem not_correctRun_of_shared {op' : Insertion α} {ops : List (Insertion α)} (hd : FirstBytes done)
    (hv : ValidLabel op.label) (hop' : op' ∈ done) (hhead : op'.label.head? = op.label.head?)
    (hne : op'.label ≠ op.label) : ¬CorrectRun done (flat done) (op :: ops) := by
  obtain ⟨b, rest, hlabel⟩ := List.exists_cons_of_ne_nil hv.1
  rintro ⟨-, new, t', hins, hnew, hrun⟩
  have hfresh : ¬∃ op₂ ∈ done, op₂.label = op.label := by
    rintro ⟨op₂, hop₂, heq⟩
    exact hne ((hd op' hop' op₂ hop₂ (by rw [hhead, heq])).trans heq)
  obtain ⟨op₂, hb⟩ := byFirstByte_of_mem (b := b) hop' (by rw [hhead, hlabel]; rfl)
  rw [hnew.2 hfresh] at hins
  have hlost := insert_flat_other hlabel hb hins
  have hrep : t'.Represents (done ++ [op]) := by
    cases ops with
    | nil => exact hrun
    | cons => exact hrun.1
  have hfound := (hrep op.label hv).1.2 ⟨op, by simp, rfl⟩
  rw [hlost] at hfound
  cases hfound

/-- A run from a flat trie. -/
theorem correctRun_flat_iff : ∀ {ops done : List (Insertion α)}, FirstBytes done →
    (∀ op ∈ done ++ ops, ValidLabel op.label) →
    (CorrectRun done (flat done) ops ↔
      FirstBytes (done ++ ops) ∧ NoInnerZero (done ++ ops) ∧ NullData (done ++ ops))
  | [], done, hd, hv => by
    rw [List.append_nil] at hv ⊢
    rw [CorrectRun, represents_flat_iff hd hv]
    exact (and_iff_right hd).symm
  | op :: ops, done, hd, hv => by
    by_cases hshared : ∀ op' ∈ done, op'.label.head? = op.label.head? → op'.label = op.label
    · have hsplit : done ++ op :: ops = done ++ [op] ++ ops := by simp
      -- the insertion keeps the trie flat, so the rest of the run is from a flat trie
      have ih := @correctRun_flat_iff ops _ (hd.append_singleton hshared) (by rwa [← hsplit])
      obtain ⟨new, hins, hnew⟩ := insert_flat (hv op (by simp)) hshared
      rw [hsplit, ← ih]
      constructor
      · rintro ⟨-, new', t', hins', -, hrun⟩
        rw [hins] at hins'
        injection hins' with hins'
        injection hins' with _ ht
        rwa [ht]
      · intro hrun
        obtain ⟨-, hzero, hnull⟩ := ih.1 hrun
        rw [← hsplit] at hzero hnull
        have hrep := represents_flat hd (fun op hop => hzero op (List.mem_append_left _ hop)) hnull.append_left
        exact ⟨hrep, new, _, hins, hnew, hrun⟩
    · obtain ⟨op', hop', hhead, hne⟩ : ∃ op' ∈ done, op'.label.head? = op.label.head? ∧
        op'.label ≠ op.label := by
        simpa using hshared
      refine iff_of_false (not_correctRun_of_shared hd (hv op (by simp)) hop' hhead hne) ?_
      rintro ⟨hd', -, -⟩
      exact hne (hd' op' (by simp [hop']) op (by simp) hhead)

end Flat

theorem flat_nil : flat ([] : List (Insertion α)) = root := rfl

/-- The trie is the finite map of its insertions all through a run exactly if distinct labels have
distinct first bytes, no label has a zero byte before its last byte, and the first insertion of
every label is with the null pointer. -/
theorem insertions_correct_iff (ops : List (Insertion α)) (hops : ∀ op ∈ ops, ValidLabel op.label) :
    CorrectRun [] root ops ↔ FirstBytes ops ∧ NoInnerZero ops ∧ NullData ops := by
  have hnil : FirstBytes ([] : List (Insertion α)) := fun _ ha => absurd ha (by simp)
  exact correctRun_flat_iff hnil hops

/-- "ab", "b" and a label that ends in a zero byte, and "ab" again. -/
theorem insertions_correct_iff_distinct :
    CorrectRun [] root
      ([⟨[0x61, 0x62], none⟩, ⟨[0x62], none⟩, ⟨[0x63, 0], none⟩, ⟨[0x61, 0x62], none⟩] : List
        (Insertion Nat)) := by
  refine (insertions_correct_iff _ ?_).2 ⟨?_, ?_, ?_⟩
  · simp [ValidLabel]
  · simp [FirstBytes]
  · simp [NoInnerZero]
  · intro label op hfirst
    have hmem := List.mem_of_find?_eq_some hfirst
    simp only [List.mem_cons, List.not_mem_nil, or_false] at hmem
    rcases hmem with rfl | rfl | rfl | rfl <;> rfl

/-- Of two labels with one first byte the second is lost: "ab", then "ac". -/
theorem second_label_lost :
    ¬CorrectRun [] root ([⟨[0x61, 0x62], none⟩, ⟨[0x61, 0x63], none⟩] : List (Insertion Nat)) := by
  rintro ⟨-, new, t', hins, -, -, new', t'', hins', hnew, hrep⟩
  rw [← flat_nil, insert_flat_new (b := 0x61) rfl rfl] at hins
  injection hins with hins
  injection hins with _ ht
  rw [← ht, hnew.2 (by simp)] at hins'
  have hlost := insert_flat_other (b := 0x61) rfl rfl hins'
  have hfound := (hrep [0x61, 0x63] ⟨by simp, by decide⟩).1.2 ⟨⟨[0x61, 0x63], none⟩, by simp, rfl⟩
  rw [hlost] at hfound
  cases hfound

end TrieNode

end Embark
