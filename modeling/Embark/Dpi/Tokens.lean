/-
The list of tokens that `get_user_tokens_from_buffer_easy_3` returns, from any free list whose
nodes have their own strings: it holds every marked offset once, the last one first, with the eight
bytes of the text from there on. The function returns exactly when the free list has a node for
every mark.
-/
import Embark.Dpi.Pool

namespace Embark

namespace Dpi

namespace Pool

/-- The offset and the text of the string of a node. -/
def token (pool : Pool) (n : Nat) : Nat × List Byte :=
  let str := pool.csstrings (pool.nodes n).str
  (str.bytestreamOffset, pool.mystrings.slice str.s str.strlen)

/-- Two nodes have different strings with different buffers. -/
structure Separate (pool : Pool) (m n : Nat) : Prop where
  str : (pool.nodes m).str ≠ (pool.nodes n).str
  buffer : pool.buffer m + 32 ≤ pool.buffer n ∨ pool.buffer n + 32 ≤ pool.buffer m

/-- The free list runs through the nodes `free`, no two of which share a string or a buffer. -/
structure Free (pool : Pool) (free : List Nat) : Prop where
  list : IsList pool.next pool.freed free
  separate : free.Pairwise pool.Separate

theorem Separate.symm {pool : Pool} {m n : Nat} (h : pool.Separate m n) : pool.Separate n m :=
  ⟨h.str.symm, h.buffer.symm⟩

theorem Separate.ne {pool : Pool} {m n : Nat} (h : pool.Separate m n) : m ≠ n := fun he => h.str (by rw [he])

/-- A pool with all its nodes free has a free list of 1500 nodes. -/
theorem Ready.free {pool : Pool} (h : pool.Ready) : ∃ free, pool.Free free ∧ free.length = poolSize := by
  obtain ⟨l, hl, hperm, howns⟩ := h
  refine ⟨l, ⟨hl, ?_⟩, by rw [hperm.length_eq, List.length_range]⟩
  have hnodup : l.Nodup := hperm.nodup_iff.2 List.nodup_range
  refine hnodup.imp_of_mem fun {m n} hm hn hne => ?_
  have hm' : m < poolSize := List.mem_range.1 (hperm.mem_iff.1 hm)
  have hn' : n < poolSize := List.mem_range.1 (hperm.mem_iff.1 hn)
  refine ⟨by rw [(howns m hm').1, (howns n hn').1]; exact hne, ?_⟩
  rw [howns.buffer_eq hm', howns.buffer_eq hn']
  omega

/-! ## Taking a node -/

section Take

variable (pool : Pool) (n : Nat) (ln : Option Nat) (text : Memory) (i k : Nat)

theorem str_take : ((pool.take n ln text i).nodes k).str = (pool.nodes k).str := by
  unfold take fillString setNext
  dsimp only
  split
  · rename_i hk
    rw [hk]
  · rfl

theorem csstrings_take : (pool.take n ln text i).csstrings k =
    if k = (pool.nodes n).str then ⟨pool.buffer n, .plaintext, minTokenSize, i⟩ else pool.csstrings k := by
  unfold take fillString setNext buffer
  simp only [if_true]

theorem mystrings_take : (pool.take n ln text i).mystrings =
    (pool.mystrings.writeBytes (pool.buffer n) (List.replicate 32 0)).writeBytes (pool.buffer n)
      (text.slice i minTokenSize) := by
  unfold take fillString setNext buffer
  simp only [if_true]

theorem buffer_take : (pool.take n ln text i).buffer k = pool.buffer k := by
  unfold buffer
  rw [str_take, csstrings_take]
  split
  · rename_i hk
    rw [hk]
    rfl
  · rfl

variable {pool n k} in
theorem Separate.take {m : Nat} (h : pool.Separate m k) : (pool.take n ln text i).Separate m k :=
  ⟨by rw [str_take, str_take]; exact h.str, by rw [buffer_take, buffer_take]; exact h.buffer⟩

/-- The token of the node itself. -/
theorem token_take_self : (pool.take n ln text i).token n = (i, text.slice i minTokenSize) := by
  have hlen : (text.slice i minTokenSize).length = minTokenSize := Memory.length_slice ..
  unfold token
  rw [str_take, csstrings_take, if_pos rfl, mystrings_take]
  dsimp only
  rw [Memory.slice_writeBytes _ (by rw [hlen]), hlen, List.drop_of_length_le (by rw [Memory.length_slice]),
    List.append_nil]

variable {pool n k} in
/-- The tokens of the other nodes stay. -/
theorem token_take_of_separate (h : pool.Separate k n) (hlen : (pool.token k).2.length = minTokenSize) :
    (pool.take n ln text i).token k = pool.token k := by
  have hne := h.str
  have hbuf := h.buffer
  have hstrlen : (pool.csstrings (pool.nodes k).str).strlen = 8 := by
    unfold token at hlen
    rwa [Memory.length_slice] at hlen
  have hwin : (text.slice i minTokenSize).length = 8 := Memory.length_slice ..
  have hbytes : ∀ j < 8, (pool.take n ln text i).mystrings (pool.buffer k + j) =
    pool.mystrings (pool.buffer k + j) := by
    intro j hj
    rw [mystrings_take, Memory.writeBytes_of_disjoint _ (by omega),
      Memory.writeBytes_of_disjoint _ (by rw [List.length_replicate]; omega)]
  unfold token
  rw [str_take, csstrings_take, if_neg hne]
  dsimp only
  congr 1
  refine List.map_congr_left fun j hj => ?_
  rw [List.mem_range, hstrlen] at hj
  exact hbytes j hj

end Take

end Pool

/-! ## The token loop -/

/-- The list at `ln` holds the given tokens. -/
def TokensAt (pool : Pool) (ln : Option Nat) (tokens : List (Nat × List Byte)) : Prop :=
  ∃ nodes, IsList pool.next ln nodes ∧ nodes.map pool.token = tokens

theorem TokensAt.unique {pool : Pool} {ln : Option Nat} {tokens tokens' : List (Nat × List Byte)}
    (h : TokensAt pool ln tokens) (h' : TokensAt pool ln tokens') : tokens = tokens' := by
  obtain ⟨nodes, hl, rfl⟩ := h
  obtain ⟨nodes', hl', rfl⟩ := h'
  rw [hl.unique hl']

/-- The token of the text at an offset. -/
def tokenOf (text : Memory) (i : Nat) : Nat × List Byte := (i, text.slice i minTokenSize)

/-- The nodes in hand, for the offsets `offsets`, and the free nodes. -/
structure Taken (text : Memory) (pool : Pool) (ln : Option Nat) (nodes : List Nat) (offsets : List Nat)
    (free : List Nat) : Prop where
  tokenList : IsList pool.next ln nodes
  freeList : IsList pool.next pool.freed free
  separate : (nodes ++ free).Pairwise pool.Separate
  token : nodes.map pool.token = offsets.map (tokenOf text)

namespace Taken

variable {text : Memory} {pool : Pool} {ln : Option Nat} {nodes offsets free : List Nat} {n i : Nat}

theorem take (h : Taken text pool ln nodes offsets (n :: free)) :
    Taken text (pool.take n ln text i) (some n) (n :: nodes) (i :: offsets) free := by
  have hsep := h.separate
  rw [List.pairwise_append, List.pairwise_cons] at hsep
  obtain ⟨hnodes, ⟨hnfree, -⟩, hcross⟩ := hsep
  have hn : ∀ k ∈ nodes, pool.Separate k n := fun k hk => hcross k hk n (by simp)
  have hnext : ∀ k, k ≠ n → (pool.take n ln text i).next k = pool.next k := fun k hk => by
    rw [Pool.next_take, if_neg hk]
  constructor
  · refine IsList.cons (IsList.congr (fun k hk => hnext k (hn k hk).ne) h.tokenList) ?_
    rw [Pool.next_take, if_pos rfl]
  · have hrest : IsList pool.next (pool.next n) free := h.freeList.2
    exact IsList.congr (fun k hk => hnext k (hnfree k hk).symm.ne) hrest
  · have hperm : (nodes ++ n :: free).Perm (n :: nodes ++ free) := List.perm_middle
    have hall : (n :: nodes ++ free).Pairwise pool.Separate :=
      (hperm.pairwise_iff fun h => Pool.Separate.symm h).1 h.separate
    exact hall.imp fun h => h.take ln text i
  · rw [List.map_cons, List.map_cons, Pool.token_take_self, ← h.token]
    congr 1
    refine List.map_congr_left fun k hk => Pool.token_take_of_separate ln text i (hn k hk) ?_
    have hmem : pool.token k ∈ offsets.map (tokenOf text) := by
      rw [← h.token]
      exact List.mem_map_of_mem hk
    obtain ⟨j, -, hj⟩ := List.mem_map.1 hmem
    rw [← hj]
    exact Memory.length_slice ..

end Taken

/-- The token loop takes a node for every marked offset, or reads through the null pointer. -/
theorem takeTokens_taken {text : Memory} {tok : Nat → Bool} : ∀ {n i : Nat} {ln : Option Nat} {pool : Pool}
    {nodes offsets free : List Nat}, Taken text pool ln nodes offsets free →
    (((List.range' i n).filter tok).length ≤ free.length → ∃ ln' pool' nodes' free',
      takeTokens text tok n i ln pool = some (ln', pool') ∧
        Taken text pool' ln' nodes' (((List.range' i n).filter tok).reverse ++ offsets) free') ∧
    (free.length < ((List.range' i n).filter tok).length → takeTokens text tok n i ln pool = none)
  | 0, i, ln, pool, nodes, offsets, free, h =>
    ⟨fun _ => ⟨ln, pool, nodes, free, rfl, by simpa using h⟩, fun hlt => absurd hlt (by simp)⟩
  | n + 1, i, ln, pool, nodes, offsets, free, h => by
    rw [List.range'_succ]
    unfold takeTokens
    by_cases htok : tok i
    · rw [List.filter_cons_of_pos htok, if_pos htok, List.length_cons]
      cases free with
      | nil =>
        have hfreed : pool.freed = none := h.freeList
        rw [hfreed]
        exact ⟨fun hle => absurd hle (by simp), fun _ => rfl⟩
      | cons cln free =>
        have hfreed : pool.freed = some cln := h.freeList.1
        have ih := @takeTokens_taken text tok n (i + 1) _ _ _ _ _ (h.take (i := i))
        rw [hfreed, List.length_cons, List.reverse_cons, List.append_assoc, List.singleton_append]
        exact ⟨fun hle => ih.1 (by omega), fun hlt => ih.2 (by omega)⟩
    · rw [List.filter_cons_of_neg htok, if_neg htok]
      exact takeTokens_taken h

/-- The tokens of a text, last offset first. -/
def tokensOf (text : Memory) (textlen : Nat) (dividers : Int → Bool) : List (Nat × List Byte) :=
  (marks text textlen dividers).reverse.map (tokenOf text)

section Tokens

variable (w : Nat → Nat → Bool) (text : Memory) (textlen : Nat) (dividers : Int → Bool) {pool : Pool}
  {free : List Nat}

/-- With a free node for every mark the function returns the tokens of the text, whatever the test
of the windows. -/
theorem getUserTokensBy_some (h : pool.Free free) (hlen : (marksBy w textlen).length ≤ free.length) :
    ∃ ln pool', getUserTokensBy w text textlen pool = some (ln, pool') ∧
      TokensAt pool' ln ((marksBy w textlen).reverse.map (tokenOf text)) := by
  have htaken : Taken text pool none [] [] free := ⟨IsList.none_iff.2 rfl, h.list, h.separate, rfl⟩
  obtain ⟨ln, pool', nodes, free', hrun, ht⟩ := (takeTokens_taken htaken).1 hlen
  exact ⟨ln, pool', hrun, nodes, ht.tokenList, by rw [ht.token, List.append_nil]; rfl⟩

theorem getUserTokensFromBuffer_some (h : pool.Free free)
    (hlen : (marks text textlen dividers).length ≤ free.length) :
    ∃ ln pool', getUserTokensFromBuffer text textlen dividers pool = some (ln, pool') ∧
      TokensAt pool' ln (tokensOf text textlen dividers) := by
  rw [getUserTokensFromBuffer_eq]
  exact getUserTokensBy_some _ text textlen h hlen

/-- With fewer it reads through the null pointer at the end of the free list. -/
theorem getUserTokensFromBuffer_none (h : pool.Free free) (hlen : free.length < (marks text textlen dividers).length) :
    getUserTokensFromBuffer text textlen dividers pool = none := by
  have htaken : Taken text pool none [] [] free := ⟨IsList.none_iff.2 rfl, h.list, h.separate, rfl⟩
  exact (takeTokens_taken htaken).2 hlen

variable {text textlen dividers} in
theorem mem_tokensOf {t : Nat × List Byte} :
    t ∈ tokensOf text textlen dividers ↔ tokenize text textlen dividers t.1 ∧ t = tokenOf text t.1 := by
  unfold tokensOf
  rw [List.mem_map]
  constructor
  · rintro ⟨i, hi, rfl⟩
    rw [List.mem_reverse, mem_marks] at hi
    exact ⟨hi, rfl⟩
  · rintro ⟨hi, ht⟩
    exact ⟨t.1, by rwa [List.mem_reverse, mem_marks], ht.symm⟩

end Tokens

end Dpi

end Embark
