/-
The tokenizer of the DPI element: `get_user_tokens_from_buffer_easy_3` marks the offsets at which
tokens start, in windows of 8 to 32 bytes between dividers, and then takes a node from the free
list for every marked offset and fills the node's string with the eight bytes from there on.
Reading through the null pointer is `none`.
-/
import Embark.Lib.Bytes

namespace Embark

namespace Dpi

def maxTokenSize : Nat := 32

def minTokenSize : Nat := 8

/-! ## Marking -/

/-- The fill loop over `j` for a selected window that ends at `endidx`, at most `n` rounds of it:
where no token starts within eight bytes after the last one, one is added. -/
def fillMarks (endidx : Nat) : Nat → Nat → Nat → (Nat → Bool) → Nat → Bool
  | 0, _, _, tokenize => tokenize
  | n + 1, j, upto, tokenize =>
    if upto < endidx ∧ j ≤ endidx + 1 then
      let upto := if tokenize j then j + minTokenSize - 1 else upto
      if upto = j - 1 then
        fillMarks endidx n (j + 1) (j + minTokenSize - 1) fun i => if i = j then true else tokenize i
      else fillMarks endidx n (j + 1) upto tokenize
    else tokenize

/-- The test of a window against the dividers. `exclusiveleft` stays `'a'`: the statement under
`if(startidx != 0)` reads a byte and drops it. A `char` index is signed. -/
def selected (text : Memory) (dividers : Int → Bool) (startidx endidx : Nat) : Bool :=
  let inclusiveright := (text endidx).toInt
  let exclusiveright := (text (endidx + 1)).toInt
  let inclusiveleft := (text startidx).toInt
  let exclusiveleft : Int := 0x61
  (dividers inclusiveleft || dividers exclusiveleft) && (dividers inclusiveright || dividers exclusiveright)

/-- One window of the nested loops. -/
def markWindow (text : Memory) (dividers : Int → Bool) (roundsize : Nat) (tokenize : Nat → Bool) (startidx : Nat) :
    Nat → Bool :=
  let endidx := startidx + roundsize - 1
  if selected text dividers startidx endidx then
    fillMarks endidx (endidx + 1 - startidx) (startidx + 1) (startidx + minTokenSize - 1)
      fun i => if i = startidx ∨ i = endidx then true else tokenize i
  else tokenize

/-- The array `tokenize` after the rounds: for each size from 8 to 32, every window of the text. -/
def tokenize (text : Memory) (textlen : Nat) (dividers : Int → Bool) : Nat → Bool :=
  (List.range' minTokenSize (maxTokenSize + 1 - minTokenSize)).foldl
    (fun tok roundsize => (List.range (textlen + 1 - roundsize)).foldl (markWindow text dividers roundsize) tok)
    fun _ => false

/-! ## Any test in place of that of the dividers -/

/-- `markWindow`, with the test `w` of a window. -/
def markWindowBy (w : Nat → Nat → Bool) (roundsize : Nat) (tokenize : Nat → Bool) (startidx : Nat) :
    Nat → Bool :=
  let endidx := startidx + roundsize - 1
  if w startidx endidx then
    fillMarks endidx (endidx + 1 - startidx) (startidx + 1) (startidx + minTokenSize - 1)
      fun i => if i = startidx ∨ i = endidx then true else tokenize i
  else tokenize

/-- `tokenize`, with the test `w` of a window. -/
def tokenizeBy (w : Nat → Nat → Bool) (textlen : Nat) : Nat → Bool :=
  (List.range' minTokenSize (maxTokenSize + 1 - minTokenSize)).foldl
    (fun tok roundsize => (List.range (textlen + 1 - roundsize)).foldl (markWindowBy w roundsize) tok)
    fun _ => false

theorem tokenize_eq (text : Memory) (textlen : Nat) (dividers : Int → Bool) :
    tokenize text textlen dividers = tokenizeBy (selected text dividers) textlen := rfl

/-! ## The pool -/

/-- `string_type`. -/
inductive StringType
  | plaintext
  | snortCs
  | userEnc
  | ttpToken
  | comboToken
  | cacheToken
deriving DecidableEq, Repr

/-- `content_string`, with its buffer as an offset in `mystrings`. -/
structure ContentString where
  s : Nat
  type : StringType
  strlen : Nat
  bytestreamOffset : Nat

/-- `cs_list_node`, with indices into `csstrings` and `nodes` for its pointers. -/
structure CsListNode where
  str : Nat
  next : Option Nat

/-- The memory of an `MBArkDPI` element that its list nodes live in, and the head of the free
list. -/
structure Pool where
  mystrings : Memory
  csstrings : Nat → ContentString
  nodes : Nat → CsListNode
  freed : Option Nat

namespace Pool

/-- The successors of the nodes. -/
def next (pool : Pool) (n : Nat) : Option Nat := (pool.nodes n).next

/-- `n->next = next`. -/
def setNext (pool : Pool) (n : Nat) (next : Option Nat) : Pool :=
  { pool with nodes := fun k => if k = n then { pool.nodes n with next } else pool.nodes k }

/-- Where the buffer of a node's string is. -/
def buffer (pool : Pool) (n : Nat) : Nat := (pool.csstrings (pool.nodes n).str).s

/-- The writes to the string of the node `cln` for the token at offset `i`. -/
def fillString (pool : Pool) (cln : Nat) (text : Memory) (i : Nat) : Pool :=
  let str := (pool.nodes cln).str
  let s := (pool.csstrings str).s
  { pool with
    csstrings := fun k => if k = str then ⟨s, .plaintext, minTokenSize, i⟩ else pool.csstrings k
    mystrings := (pool.mystrings.writeBytes s (List.replicate 32 0)).writeBytes s (text.slice i minTokenSize) }

end Pool

/-- The token loop over the next `n` offsets from `i` on: the list `ln` so far, in front of which
each token's node is put. -/
def takeTokens (text : Memory) (tok : Nat → Bool) :
    Nat → Nat → Option Nat → Pool → Option (Option Nat × Pool)
  | 0, _, ln, pool => some (ln, pool)
  | n + 1, i, ln, pool =>
    if tok i then
      match pool.freed with
      | none => none
      | some cln =>
        -- `*freenodes = cln->next` before `cln->next = ln`: both lists run through the same field
        let pool := { pool with freed := pool.next cln }
        takeTokens text tok n (i + 1) (some cln) ((pool.setNext cln ln).fillString cln text i)
    else takeTokens text tok n (i + 1) ln pool

/-- `get_user_tokens_from_buffer_easy_3`. -/
def getUserTokensFromBuffer (text : Memory) (textlen : Nat) (dividers : Int → Bool) (pool : Pool) :
    Option (Option Nat × Pool) :=
  takeTokens text (tokenize text textlen dividers) (textlen + maxTokenSize) 0 none pool

/-- `getUserTokensFromBuffer`, with the test `w` of a window. -/
def getUserTokensBy (w : Nat → Nat → Bool) (text : Memory) (textlen : Nat) (pool : Pool) :
    Option (Option Nat × Pool) :=
  takeTokens text (tokenizeBy w textlen) (textlen + maxTokenSize) 0 none pool

theorem getUserTokensFromBuffer_eq (text : Memory) (textlen : Nat) (dividers : Int → Bool) (pool : Pool) :
    getUserTokensFromBuffer text textlen dividers pool = getUserTokensBy (selected text dividers) text textlen pool :=
  rfl

end Dpi

end Embark
