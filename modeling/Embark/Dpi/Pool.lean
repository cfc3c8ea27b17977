/-
The node pool of the DPI element. Its 1500 nodes are at all times either on the free list or on the
list of tokens in hand; taking a node and giving one back move it from one list to the other, and
every node keeps its own string and that string its own 32 bytes.
-/
import Embark.Dpi.Marks
import Embark.Lib.LinkedList
import Mathlib.Data.List.Perm.Subperm

namespace Embark

namespace Dpi

/-- The number of nodes, and of strings, of an element. -/
def poolSize : Nat := 1500

/-- The bytes a cipher call reads from the buffer at `a`. -/
def blockAt (m : Memory) (a : Nat) : Vector Byte 16 := Vector.ofFn fun k => m (a + k)

/-- The eight bytes of the text from `i` on, padded with zeros to a block. -/
def paddedWindow (text : Memory) (i : Nat) : Vector Byte 16 :=
  Vector.ofFn fun k => if k.val < minTokenSize then text (i + k) else 0

namespace Pool

/-- One round of the constructor's loop: node `i` goes to the free list with its own string. -/
def addNode (pool : Pool) (i : Nat) : Pool where
  mystrings := pool.mystrings
  csstrings := fun k => if k = i then { pool.csstrings i with s := 32 * i, strlen := 32 } else pool.csstrings k
  nodes := fun k => if k = i then ⟨i, pool.freed⟩ else pool.nodes k
  freed := some i

/-- The pool after `memset`: all bytes, and so all fields, are zero. -/
def zero : Pool := ⟨fun _ => 0, fun _ => ⟨0, .plaintext, 0, 0⟩, fun _ => ⟨0, none⟩, none⟩

/-- The pool the constructor sets up. -/
def init : Pool := (List.range poolSize).foldl addNode zero

/-- `n->next = freed; freed = n`. -/
def free (pool : Pool) (n : Nat) : Pool := { pool.setNext n pool.freed with freed := some n }

/-- `*freenodes = n->next; n->next = ln` and the writes to its string. -/
def take (pool : Pool) (n : Nat) (ln : Option Nat) (text : Memory) (i : Nat) : Pool :=
  (({ pool with freed := pool.next n } : Pool).setNext n ln).fillString n text i

/-- Each node has its own string, and each string its own buffer. -/
def Owns (pool : Pool) : Prop := ∀ n < poolSize, (pool.nodes n).str = n ∧ (pool.csstrings n).s = 32 * n

/-- All nodes are on the free list, each once, with their own strings and buffers. -/
def Ready (pool : Pool) : Prop :=
  ∃ l, IsList pool.next pool.freed l ∧ l.Perm (List.range poolSize) ∧ pool.Owns

@[simp] theorem next_setNext (pool : Pool) (n : Nat) (x : Option Nat) (k : Nat) :
    (pool.setNext n x).next k = if k = n then x else pool.next k := by
  unfold next setNext
  by_cases hk : k = n <;> simp [hk]

@[simp] theorem next_fillString (pool : Pool) (n : Nat) (text : Memory) (i : Nat) :
    (pool.fillString n text i).next = pool.next := rfl

theorem next_free (pool : Pool) (n k : Nat) : (pool.free n).next k = if k = n then pool.freed else pool.next k :=
  next_setNext pool n pool.freed k

theorem next_take (pool : Pool) (n : Nat) (ln : Option Nat) (text : Memory) (i k : Nat) :
    (pool.take n ln text i).next k = if k = n then ln else pool.next k := by
  unfold take
  rw [next_fillString, next_setNext]
  rfl

theorem Owns.buffer_eq {pool : Pool} {n : Nat} (h : pool.Owns) (hn : n < poolSize) : pool.buffer n = 32 * n := by
  unfold buffer
  rw [(h n hn).1, (h n hn).2]

theorem Owns.setNext {pool : Pool} (h : pool.Owns) (n : Nat) (x : Option Nat) : (pool.setNext n x).Owns := by
  intro k hk
  have hstr : ((pool.setNext n x).nodes k).str = (pool.nodes k).str := by
    unfold Pool.setNext
    dsimp only
    split
    · rename_i hkn
      rw [hkn]
    · rfl
  rw [hstr]
  exact h k hk

theorem Owns.fillString {pool : Pool} (h : pool.Owns) (n : Nat) (text : Memory) (i : Nat) :
    (pool.fillString n text i).Owns := by
  intro k hk
  refine ⟨(h k hk).1, ?_⟩
  unfold Pool.fillString
  dsimp only
  split
  · rename_i hkn
    rw [← hkn, (h k hk).2]
  · exact (h k hk).2

theorem Owns.take {pool : Pool} (h : pool.Owns) (n : Nat) (ln : Option Nat) (text : Memory) (i : Nat) :
    (pool.take n ln text i).Owns := by
  have hfreed : Owns { pool with freed := pool.next n } := h
  exact (hfreed.setNext n ln).fillString n text i

/-- Taking a node writes to its own buffer. -/
theorem Owns.mystrings_take {pool : Pool} (h : pool.Owns) {n : Nat} (hn : n < poolSize) (ln : Option Nat)
    (text : Memory) (i : Nat) : (pool.take n ln text i).mystrings =
      (pool.mystrings.writeBytes (32 * n) (List.replicate 32 0)).writeBytes (32 * n) (text.slice i minTokenSize) := by
  have hstr : ((({ pool with freed := pool.next n } : Pool).setNext n ln).nodes n).str = n := by
    simp [Pool.setNext, (h n hn).1]
  unfold Pool.take Pool.fillString
  dsimp only
  rw [hstr]
  simp only [Pool.setNext]
  rw [(h n hn).2]

/-! ## The constructor -/

/-- Nodes `0` to `n - 1` are linked, the last one first. -/
structure Built (pool : Pool) (n : Nat) : Prop where
  own : ∀ k < n, (pool.nodes k).str = k ∧ (pool.csstrings k).s = 32 * k
  list : IsList pool.next pool.freed (List.range n).reverse

theorem Built.addNode {pool : Pool} {n : Nat} (h : pool.Built n) : (pool.addNode n).Built (n + 1) := by
  constructor
  · intro k hk
    unfold Pool.addNode
    by_cases hkn : k = n
    · subst hkn
      simp
    · simp only [hkn, if_false]
      exact h.own k (by omega)
  · rw [List.range_succ, List.reverse_append, List.reverse_singleton, List.singleton_append]
    apply IsList.cons
    · refine IsList.congr (fun k hk => ?_) h.list
      have hlt : k < n := by simpa using hk
      simp [next, Pool.addNode, Nat.ne_of_lt hlt]
    · simp [next, Pool.addNode]

theorem foldl_addNode_built : ∀ n, ((List.range n).foldl Pool.addNode zero).Built n
  | 0 => ⟨fun k hk => absurd hk (Nat.not_lt_zero k), rfl⟩
  | n + 1 => by
    rw [List.range_succ, List.foldl_append]
    exact (foldl_addNode_built n).addNode

theorem Built.ready {pool : Pool} {n : Nat} (h : pool.Built n) (hn : n = poolSize) : pool.Ready := by
  refine ⟨(List.range n).reverse, h.list, ?_, ?_⟩
  · rw [← hn]
    exact List.reverse_perm _
  · intro k hk
    exact h.own k (by omega)

theorem init_ready : init.Ready := (foldl_addNode_built poolSize).ready rfl

end Pool

/-! ## The two lists -/

/-- The token list at `ln` holds the nodes and offsets `tokens`, the free list holds `free`, and
together they hold every node once. The buffers of the tokens hold their windows of the text. -/
structure Holding (text : Memory) (pool : Pool) (ln : Option Nat) (tokens : List (Nat × Nat)) (free : List Nat) :
    Prop where
  tokenList : IsList pool.next ln (tokens.map Prod.fst)
  freeList : IsList pool.next pool.freed free
  perm : (tokens.map Prod.fst ++ free).Perm (List.range poolSize)
  owns : pool.Owns
  window : ∀ t ∈ tokens, blockAt pool.mystrings (pool.buffer t.1) = paddedWindow text t.2

namespace Holding

variable {text : Memory} {pool : Pool} {ln : Option Nat} {tokens : List (Nat × Nat)} {free : List Nat} {n i : Nat}

theorem of_ready (text : Memory) (h : pool.Ready) : ∃ free, Holding text pool none [] free :=
  let ⟨l, hl, hp, ho⟩ := h
  ⟨l, IsList.none_iff.2 rfl, hl, hp, ho, by simp⟩

theorem ready (h : Holding text pool none [] free) : pool.Ready := ⟨free, h.freeList, h.perm, h.owns⟩

theorem nodup (h : Holding text pool ln tokens free) : (tokens.map Prod.fst ++ free).Nodup :=
  h.perm.nodup_iff.2 List.nodup_range

theorem lt (h : Holding text pool ln tokens free) (hn : n ∈ tokens.map Prod.fst ++ free) : n < poolSize :=
  List.mem_range.1 (h.perm.mem_iff.1 hn)

theorem length_add (h : Holding text pool ln tokens free) : tokens.length + free.length = poolSize := by
  have := h.perm.length_eq
  simpa using this

/-- A filled buffer holds the window, the bytes after it are the zeros of `memset`. -/
theorem blockAt_fill (m : Memory) (a : Nat) (text : Memory) (i : Nat) :
    blockAt ((m.writeBytes a (List.replicate 32 0)).writeBytes a (text.slice i minTokenSize)) a =
      paddedWindow text i := by
  apply Vector.ext
  intro k hk
  have hlen : (text.slice i minTokenSize).length = 8 := Memory.length_slice ..
  have h8 : minTokenSize = 8 := rfl
  simp only [blockAt, paddedWindow, Vector.getElem_ofFn]
  by_cases hw : k < minTokenSize
  · rw [if_pos hw]
    unfold Memory.writeBytes
    rw [if_pos (by omega)]
    simp [Memory.slice, hw]
  · rw [if_neg hw, Memory.writeBytes_of_disjoint _ (by omega)]
    unfold Memory.writeBytes
    rw [if_pos (by rw [List.length_replicate]; omega)]
    -- past the eight bytes of the token
    simp only [Nat.add_sub_cancel_left, List.getElem?_replicate]
    split <;> rfl

/-- A fill leaves the other buffers as they are. -/
theorem blockAt_fill_of_ne (m : Memory) {a b : Nat} (hab : b ≠ a) (text : Memory) (i : Nat) :
    blockAt ((m.writeBytes (32 * a) (List.replicate 32 0)).writeBytes (32 * a) (text.slice i minTokenSize))
      (32 * b) = blockAt m (32 * b) := by
  apply Vector.ext
  intro k hk
  have h8 : minTokenSize = 8 := rfl
  simp only [blockAt, Vector.getElem_ofFn]
  rw [Memory.writeBytes_of_disjoint _ (by rw [Memory.length_slice]; omega),
    Memory.writeBytes_of_disjoint _ (by rw [List.length_replicate]; omega)]

/-- Taking the first free node for the token at offset `i`. -/
theorem take (h : Holding text pool ln tokens (n :: free)) (hfreed : pool.freed = some n) :
    Holding text (pool.take n ln text i) (some n) ((n, i) :: tokens) free := by
  have hnodup := h.nodup
  rw [List.nodup_append, List.nodup_cons] at hnodup
  obtain ⟨-, ⟨hn, -⟩, hdisj⟩ := hnodup
  have hnt : n ∉ tokens.map Prod.fst := fun hmem => hdisj n hmem n (by simp) rfl
  have hlt : n < poolSize := h.lt (by simp)
  have howns : (pool.take n ln text i).Owns := h.owns.take n ln text i
  have hnext : ∀ k, k ≠ n → (pool.take n ln text i).next k = pool.next k := fun k hk => by
    rw [Pool.next_take, if_neg hk]
  have hmem := h.owns.mystrings_take hlt ln text i
  constructor
  · refine IsList.cons (IsList.congr (fun k hk => hnext k ?_) h.tokenList) ?_
    · rintro rfl
      exact hnt hk
    · rw [Pool.next_take, if_pos rfl]
  · have hrest : IsList pool.next (pool.next n) free := h.freeList.2
    refine IsList.congr (fun k hk => hnext k ?_) hrest
    rintro rfl
    exact hn hk
  · rw [List.map_cons, List.cons_append]
    exact List.perm_middle.symm.trans h.perm
  · exact howns
  · rintro ⟨k, j⟩ ht
    rw [List.mem_cons] at ht
    rcases ht with heq | ht
    · obtain ⟨rfl, rfl⟩ := Prod.mk.inj heq
      rw [howns.buffer_eq hlt, hmem]
      exact blockAt_fill ..
    · -- the buffers of the other tokens are not written to
      have hkmem : k ∈ tokens.map Prod.fst := List.mem_map_of_mem ht
      have hne : k ≠ n := fun heq => hnt (heq ▸ hkmem)
      have hltk : k < poolSize := h.lt (List.mem_append_left _ hkmem)
      rw [howns.buffer_eq hltk, hmem, blockAt_fill_of_ne _ hne, ← h.owns.buffer_eq hltk]
      exact h.window (k, j) ht

/-- Giving the first node of the token list back. -/
theorem release (h : Holding text pool (some n) ((n, i) :: tokens) free) :
    Holding text (pool.free n) (pool.next n) tokens (n :: free) := by
  have hnodup := h.nodup
  rw [List.map_cons, List.cons_append, List.nodup_cons, List.mem_append, not_or] at hnodup
  obtain ⟨⟨hnt, hnf⟩, -⟩ := hnodup
  have hnext : ∀ k, k ≠ n → (pool.free n).next k = pool.next k := fun k hk => by
    rw [Pool.next_free, if_neg hk]
  have howns : (pool.free n).Owns := h.owns.setNext n pool.freed
  constructor
  · refine IsList.congr (fun k hk => hnext k ?_) h.tokenList.2
    rintro rfl
    exact hnt hk
  · refine IsList.cons (IsList.congr (fun k hk => hnext k ?_) h.freeList) ?_
    · rintro rfl
      exact hnf hk
    · rw [Pool.next_free, if_pos rfl]
  · exact List.perm_middle.trans h.perm
  · exact howns
  · rintro ⟨k, j⟩ ht
    have hkmem : k ∈ tokens.map Prod.fst := List.mem_map_of_mem ht
    have hltk : k < poolSize := h.lt (List.mem_append_left _ (List.mem_cons_of_mem _ hkmem))
    rw [howns.buffer_eq hltk, ← h.owns.buffer_eq hltk]
    exact h.window (k, j) (List.mem_cons_of_mem _ ht)

end Holding

/-! ## The token loop -/

/-- While there are enough free nodes the token loop takes one for every marked offset. -/
theorem takeTokens_holding {text : Memory} {tok : Nat → Bool} : ∀ {n i : Nat} {ln : Option Nat} {pool : Pool}
    {tokens : List (Nat × Nat)} {free : List Nat}, Holding text pool ln tokens free →
    ((List.range' i n).filter tok).length ≤ free.length →
    ∃ ln' pool' tokens' free', takeTokens text tok n i ln pool = some (ln', pool') ∧
      Holding text pool' ln' tokens' free' ∧
      tokens'.map Prod.snd = ((List.range' i n).filter tok).reverse ++ tokens.map Prod.snd
  | 0, _, ln, pool, tokens, free, h, _ => ⟨ln, pool, tokens, free, rfl, h, by simp⟩
  | n + 1, i, ln, pool, tokens, free, h, hlen => by
    rw [List.range'_succ] at hlen ⊢
    unfold takeTokens
    by_cases htok : tok i
    · rw [List.filter_cons_of_pos htok] at hlen ⊢
      cases free with
      | nil => exact absurd hlen (by simp)
      | cons cln free =>
        have hfreed : pool.freed = some cln := h.freeList.1
        rw [if_pos htok, hfreed]
        obtain ⟨ln', pool', tokens', free', hrun, hh, hsnd⟩ :=
          takeTokens_holding (n := n) (i := i + 1) (h.take (i := i) hfreed) (by simpa using hlen)
        refine ⟨ln', pool', tokens', free', hrun, hh, ?_⟩
        rw [hsnd, List.reverse_cons, List.map_cons, List.append_assoc, List.singleton_append]
    · rw [List.filter_cons_of_neg htok] at hlen ⊢
      rw [if_neg htok]
      exact takeTokens_holding h hlen

/-- The marked offsets in order. -/
def marks (text : Memory) (textlen : Nat) (dividers : Int → Bool) : List Nat :=
  (List.range' 0 (textlen + maxTokenSize)).filter (tokenize text textlen dividers)

/-- The offsets marked with the test `w`, in order. -/
def marksBy (w : Nat → Nat → Bool) (textlen : Nat) : List Nat :=
  (List.range' 0 (textlen + maxTokenSize)).filter (tokenizeBy w textlen)

section Marks

variable {w : Nat → Nat → Bool} {textlen : Nat}

theorem mem_marksBy {i : Nat} : i ∈ marksBy w textlen ↔ tokenizeBy w textlen i := by
  unfold marksBy
  rw [List.mem_filter, List.mem_range'_1]
  constructor
  · rintro ⟨-, hi⟩
    exact hi
  · intro hi
    have hlt := lt_of_tokenizeBy hi
    exact ⟨⟨Nat.zero_le i, by omega⟩, hi⟩

theorem marksBy_pairwise : (marksBy w textlen).Pairwise (· < ·) := List.Pairwise.filter _ List.pairwise_lt_range'

/-- No more than `textlen` offsets are marked. -/
theorem length_marksBy_le : (marksBy w textlen).length ≤ textlen := by
  have hsub : marksBy w textlen ⊆ List.range textlen := by
    intro i hi
    rw [mem_marksBy] at hi
    exact List.mem_range.2 (lt_of_tokenizeBy hi)
  have hnodup : (marksBy w textlen).Nodup := (List.nodup_range' ..).filter _
  simpa using (hnodup.subperm hsub).length_le

variable {text : Memory} {dividers : Int → Bool}

theorem mem_marks {i : Nat} : i ∈ marks text textlen dividers ↔ tokenize text textlen dividers i := mem_marksBy

theorem marks_pairwise : (marks text textlen dividers).Pairwise (· < ·) := marksBy_pairwise

theorem length_marks_le : (marks text textlen dividers).length ≤ textlen := length_marksBy_le

end Marks

/-- From a pool with all its nodes free, the tokens of a text with at most 1500 marks are the marked
offsets, the last one first. -/
theorem getUserTokensFromBuffer_holding (text : Memory) {textlen : Nat} (dividers : Int → Bool) {pool : Pool}
    (hpool : pool.Ready) (hmarks : (marks text textlen dividers).length ≤ poolSize) :
    ∃ ln pool' tokens free, getUserTokensFromBuffer text textlen dividers pool = some (ln, pool') ∧
      Holding text pool' ln tokens free ∧ tokens.map Prod.snd = (marks text textlen dividers).reverse := by
  obtain ⟨free, h⟩ := Holding.of_ready text hpool
  have hlen : free.length = poolSize := by simpa using h.length_add
  obtain ⟨ln', pool', tokens', free', hrun, hh, hsnd⟩ := takeTokens_holding h (hmarks.trans hlen.ge)
  exact ⟨ln', pool', tokens', free', hrun, hh, by rw [hsnd, List.map_nil, List.append_nil]; rfl⟩

end Dpi

end Embark
