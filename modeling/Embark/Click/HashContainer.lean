/-
`HashContainer`: chained hashing with an intrusive chain in every bucket. The chains are lists of the
elements, and `_pprev` of an iterator is the number of elements in front of the link it points to. The
iterators of a `find` that misses point to the first link of their bucket and hold no element. Where
the container is iterated, `begin` starts at the bucket `first_bucket` remembers.
-/
import Embark.Lib.Buckets
import Mathlib.Tactic.Ring

namespace Embark

/-- `HashContainer_adapter`: the key of an element; and `hashcode` of a key. -/
structure HashContainerAdapter (τ κ : Type) where
  hashkey : τ → κ
  hashcode : κ → BitVec 64

/-- `HashContainer_rep`. -/
structure HashContainer (τ : Type) where
  buckets : List (List τ)
  size : BitVec 64
  firstBucket : Nat
deriving DecidableEq, Repr

namespace HashContainer

/-- `HashContainer_iterator`. -/
structure Iterator (τ : Type) where
  element : Option τ
  pprev : Nat
  bucket : Nat
deriving DecidableEq, Repr

variable {τ κ : Type}

/-! ## Buckets -/

def maxBucketCount : BitVec 64 := -1

def initialBucketCount : Nat := 63

/-- The loop that finds the number of buckets; it doubles 63 times at most. -/
def grow (n : BitVec 64) : Nat → BitVec 64 → BitVec 64
  | 0, b => b
  | fuel + 1, b => if b < n ∧ b < maxBucketCount then grow n fuel (((b + 1) <<< 1) - 1) else b

/-- The number of buckets for at least `n`. -/
def roundUp (n : BitVec 64) : Nat := (grow n 64 1).toNat

/-- A container of `nb` buckets. -/
def ofBuckets (nb : Nat) : HashContainer τ := ⟨List.replicate nb [], 0, nb⟩

/-- `HashContainer()`. -/
def empty : HashContainer τ := ofBuckets initialBucketCount

/-- `HashContainer(nb)`. -/
def withBuckets (nb : BitVec 64) : HashContainer τ := ofBuckets (roundUp nb)

/-- `bucket_count`. -/
def bucketCount (h : HashContainer τ) : Nat := h.buckets.length

/-- The elements of a bucket. -/
def chain (h : HashContainer τ) (b : Nat) : List τ := Buckets.bucket h.buckets b

/-- `bucket`. -/
def bucket (A : HashContainerAdapter τ κ) (h : HashContainer τ) (key : κ) : Nat :=
  (A.hashcode key).toNat % h.bucketCount

/-- `unbalanced`. -/
def unbalanced (h : HashContainer τ) : Bool :=
  decide (2 * h.bucketCount % 2 ^ 64 < h.size.toNat ∧ h.bucketCount < maxBucketCount.toNat)

/-- `rehash`: the elements are put in front of their new buckets, in the order of the old ones. -/
def rehash (A : HashContainerAdapter τ κ) (h : HashContainer τ) (n : BitVec 64) : HashContainer τ :=
  let newNbuckets := roundUp n
  if h.bucketCount = newNbuckets then h
  else
    { h with
      buckets := h.buckets.foldl (Buckets.scatter fun x => (A.hashcode (A.hashkey x)).toNat % newNbuckets)
        (List.replicate newNbuckets [])
      firstBucket := 0 }

/-! ## Iterators -/

/-- The loop of `operator++` over the buckets from `b` on. -/
def scan (h : HashContainer τ) (b : Nat) : Iterator τ :=
  match (h.buckets.drop b).findIdx? fun c => !c.isEmpty with
  | some i => ⟨(h.chain (b + i)).head?, 0, b + i⟩
  | none => ⟨none, 0, h.bucketCount⟩

/-- `operator++`; `end()`, whose bucket is no number of a bucket, is not advanced. -/
def advance (h : HashContainer τ) (it : Iterator τ) : Iterator τ :=
  if it.element.isSome && decide (it.pprev + 1 < (h.chain it.bucket).length) then
    { it with pprev := it.pprev + 1, element := (h.chain it.bucket)[it.pprev + 1]? }
  else if it.bucket ≠ h.bucketCount then h.scan (it.bucket + 1)
  else it

/-- `begin`; it writes `first_bucket`. -/
def begin (h : HashContainer τ) : HashContainer τ × Iterator τ :=
  if h.firstBucket = h.bucketCount then (h, ⟨none, 0, h.firstBucket⟩)
  else
    match (h.chain h.firstBucket).head? with
    | some e => (h, ⟨some e, 0, h.firstBucket⟩)
    | none =>
      let it := h.advance ⟨none, 0, h.firstBucket⟩
      ({ h with firstBucket := it.bucket }, it)

/-- The elements a loop `for (it = begin(); it; ++it)` visits from `it` on; none if it takes more than
`fuel` steps. -/
def visit (h : HashContainer τ) : Nat → Iterator τ → Option (List τ)
  | 0, _ => none
  | fuel + 1, it =>
    match it.element with
    | none => some []
    | some e => (visit h fuel (h.advance it)).map (e :: ·)

/-! ## Finding and changing -/

section Find

variable [DecidableEq κ] (A : HashContainerAdapter τ κ)

/-- `find`. -/
def find (h : HashContainer τ) (key : κ) : Iterator τ :=
  let b := h.bucket A key
  match (h.chain b).findIdx? fun e => A.hashkey e = key with
  | some i => ⟨(h.chain b)[i]?, i, b⟩
  | none => ⟨none, 0, b⟩

/-- `find_prefer`: an element that is found moves to the head of its bucket. -/
def findPrefer (h : HashContainer τ) (key : κ) : HashContainer τ × Iterator τ :=
  let b := h.bucket A key
  match (h.chain b).findIdx? fun e => A.hashkey e = key with
  | some i => ({ h with buckets := h.buckets.modify b fun l => l[i]?.toList ++ l.eraseIdx i },
      ⟨(h.chain b)[i]?, 0, b⟩)
  | none => (h, ⟨none, 0, b⟩)

end Find

section Set

variable (A : HashContainerAdapter τ κ)

/-- `insert_at`; the iterator moves behind the element. -/
def insertAt (h : HashContainer τ) (it : Iterator τ) (e : τ) : HashContainer τ × Iterator τ :=
  ({ buckets := h.buckets.modify it.bucket (·.insertIdx it.pprev e)
     size := h.size + 1
     firstBucket := if (h.chain it.bucket).drop it.pprev = [] then 0 else h.firstBucket },
    { it with pprev := it.pprev + 1 })

/-- `set` of no element: the element at the iterator goes, and the iterator stands at the next one. -/
def unlink (h : HashContainer τ) (it : Iterator τ) : HashContainer τ × Iterator τ × Option τ :=
  match it.element with
  | none => (h, it, none)
  | some old =>
    let h' := { h with buckets := h.buckets.modify it.bucket (·.eraseIdx it.pprev), size := h.size - 1 }
    let it' := { it with element := (h'.chain it.bucket)[it.pprev]? }
    (h', if it'.element.isNone then h'.advance it' else it', some old)

/-- The end of `set` for an element that replaces none: it goes in front of the element at the link. -/
def linkIn (h : HashContainer τ) (it : Iterator τ) (e : τ) : HashContainer τ × Iterator τ × Option τ :=
  ({ h with
      buckets := h.buckets.modify it.bucket (·.insertIdx it.pprev e)
      firstBucket := if (h.chain it.bucket).drop it.pprev = [] then 0 else h.firstBucket },
    { it with element := some e }, none)

/-- `set`. No element of the container is set again, so `old == element` holds only for two nulls. -/
def set (h : HashContainer τ) (it : Iterator τ) (element : Option τ) (balance : Bool) :
    HashContainer τ × Iterator τ × Option τ :=
  match element, it.element with
  | none, _ => h.unlink it
  | some e, some old =>
    ({ h with buckets := h.buckets.modify it.bucket (·.set it.pprev e) }, { it with element := some e }, some old)
  | some e, none =>
    let grown := { h with size := h.size + 1 }
    if grown.unbalanced && balance then
      let h' := grown.rehash A (BitVec.ofNat 64 (grown.bucketCount + 1))
      h'.linkIn { it with bucket := h'.bucket A (A.hashkey e), pprev := 0 } e
    else grown.linkIn it e

/-- `erase` at an iterator. -/
def erase (h : HashContainer τ) (it : Iterator τ) : HashContainer τ × Iterator τ × Option τ :=
  h.set A it none false

/-- `erase` of a key. -/
def eraseKey [DecidableEq κ] (h : HashContainer τ) (key : κ) : HashContainer τ × Option τ :=
  let (h', _, old) := h.set A (h.find A key) none false
  (h', old)

end Set

/-! ## Numbers of buckets -/

theorem toNat_doubled {b : BitVec 64} {k : Nat} (hb : b.toNat + 1 = 2 ^ k) (hk : k < 64) :
    (((b + 1) <<< 1) - 1).toNat + 1 = 2 ^ (k + 1) := by
  have hle : 2 ^ k ≤ 2 ^ 63 := Nat.pow_le_pow_right (by decide) (by omega)
  have hpos : 0 < 2 ^ k := Nat.two_pow_pos k
  have hone : (1 : BitVec 64).toNat = 1 := rfl
  rw [BitVec.toNat_sub, BitVec.toNat_shiftLeft, BitVec.toNat_add, hone, hb, Nat.shiftLeft_eq, Nat.pow_succ]
  omega

/-- The loop ends at a number of buckets that is one less than a power of two, and at least `n`. -/
theorem grow_spec (n : BitVec 64) : ∀ (fuel : Nat) (b : BitVec 64) (k : Nat), b.toNat + 1 = 2 ^ k → 1 ≤ k →
    k ≤ 64 → 64 ≤ k + fuel →
    ∃ j, 1 ≤ j ∧ j ≤ 64 ∧ (grow n fuel b).toNat + 1 = 2 ^ j ∧ n.toNat ≤ (grow n fuel b).toNat
  | 0, b, k, hb, hk, h64, hfuel => by
    obtain rfl : k = 64 := by omega
    exact ⟨64, hk, le_rfl, hb, by rw [grow]; omega⟩
  | fuel + 1, b, k, hb, hk, h64, hfuel => by
    rw [grow]
    split
    · rename_i hlt
      have hmax : b.toNat < 2 ^ 64 - 1 := hlt.2
      have hk' : k < 64 := by
        by_contra h
        obtain rfl : k = 64 := by omega
        omega
      exact grow_spec n fuel _ (k + 1) (toNat_doubled hb hk') (by omega) hk' (by omega)
    · rename_i hge
      refine ⟨k, hk, h64, hb, ?_⟩
      by_contra hn
      apply hge
      rw [BitVec.lt_def, BitVec.lt_def]
      exact ⟨by omega, show b.toNat < 2 ^ 64 - 1 by omega⟩

/-- The numbers of buckets a container can have. -/
def IsBucketCount (nb : Nat) : Prop := ∃ k, 1 ≤ k ∧ k ≤ 64 ∧ nb + 1 = 2 ^ k

theorem IsBucketCount.pos {nb : Nat} (h : IsBucketCount nb) : 0 < nb := by
  obtain ⟨k, hk, -, hnb⟩ := h
  have : 2 ^ 1 ≤ 2 ^ k := Nat.pow_le_pow_right (by decide) hk
  omega

theorem IsBucketCount.lt {nb : Nat} (h : IsBucketCount nb) : nb < 2 ^ 64 := by
  obtain ⟨k, -, hk, hnb⟩ := h
  have : 2 ^ k ≤ 2 ^ 64 := Nat.pow_le_pow_right (by decide) hk
  omega

/-- Of two numbers of buckets the larger is more than twice the smaller. -/
theorem IsBucketCount.lt_of_lt {a b : Nat} (ha : IsBucketCount a) (hb : IsBucketCount b) (h : a < b) : 2 * a < b := by
  obtain ⟨j, -, -, hj⟩ := ha
  obtain ⟨k, -, -, hk⟩ := hb
  have hjk : j + 1 ≤ k := by
    by_contra hle
    have : 2 ^ k ≤ 2 ^ j := Nat.pow_le_pow_right (by decide) (by omega)
    omega
  have hpow : 2 ^ (j + 1) ≤ 2 ^ k := Nat.pow_le_pow_right (by decide) hjk
  rw [Nat.pow_succ] at hpow
  omega

theorem roundUp_spec (n : BitVec 64) : IsBucketCount (roundUp n) ∧ n.toNat ≤ roundUp n := by
  obtain ⟨j, h1, h2, h3, h4⟩ := grow_spec n 64 1 1 rfl le_rfl (by decide) (by decide)
  exact ⟨⟨j, h1, h2, h3⟩, h4⟩

theorem grow_le {n : BitVec 64} {c : Nat} (hc : IsBucketCount c) (hn : n.toNat ≤ c) :
    ∀ (fuel : Nat) (b : BitVec 64), IsBucketCount b.toNat → b.toNat ≤ c → (grow n fuel b).toNat ≤ c
  | 0, _, _, hle => hle
  | fuel + 1, b, hb, hle => by
    rw [grow]
    split
    · rename_i hlt
      obtain ⟨k, hk, -, hpow⟩ := hb
      have hbn : b.toNat < n.toNat := hlt.1
      have hbmax : b.toNat < 2 ^ 64 - 1 := hlt.2
      have hk' : k < 64 := by
        by_contra h
        have : 2 ^ 64 ≤ 2 ^ k := Nat.pow_le_pow_right (by decide) (by omega)
        omega
      have hnext := toNat_doubled hpow hk'
      have htwice := IsBucketCount.lt_of_lt ⟨k, hk, hk'.le, hpow⟩ hc (by omega)
      refine grow_le hc hn fuel _ ⟨k + 1, by omega, hk', hnext⟩ ?_
      rw [Nat.pow_succ] at hnext
      omega
    · exact hle

/-- A number of buckets is not rounded. -/
theorem roundUp_self {nb : Nat} (h : IsBucketCount nb) : roundUp (BitVec.ofNat 64 nb) = nb := by
  have hn : (BitVec.ofNat 64 nb).toNat = nb := by rw [BitVec.toNat_ofNat, Nat.mod_eq_of_lt h.lt]
  have hge := (roundUp_spec (BitVec.ofNat 64 nb)).2
  have hle := grow_le h hn.le 64 1 ⟨1, le_rfl, by decide, rfl⟩ h.pos
  rw [hn] at hge
  exact Nat.le_antisymm hle hge

theorem isBucketCount_initial : IsBucketCount initialBucketCount := ⟨6, by decide, by decide, rfl⟩

/-! ## Well-formed containers -/

/-- The elements, in the order of the buckets. -/
def elements (h : HashContainer τ) : List τ := h.buckets.flatten

/-- The elements are at home and have distinct keys, and the buckets before `first_bucket` are empty. -/
structure Shaped (A : HashContainerAdapter τ κ) (h : HashContainer τ) : Prop where
  count : IsBucketCount h.bucketCount
  placed : Buckets.Placed (fun x => h.bucket A (A.hashkey x)) h.buckets
  distinct : Keyed.Distinct A.hashkey h.elements
  first : ∀ b < h.firstBucket, h.chain b = []
  first_le : h.firstBucket ≤ h.bucketCount

/-- What every operation keeps; the size counts the elements. -/
structure WellFormed (A : HashContainerAdapter τ κ) (h : HashContainer τ) : Prop extends Shaped A h where
  size : h.size = BitVec.ofNat 64 h.elements.length

/-- A live iterator holds the element its link points to. -/
structure Live (h : HashContainer τ) (it : Iterator τ) (e : τ) : Prop where
  element : it.element = some e
  link : (h.chain it.bucket)[it.pprev]? = some e

variable {A : HashContainerAdapter τ κ} {h : HashContainer τ} {it : Iterator τ} {e : τ} {b : Nat}

theorem Shaped.bucket_lt (hs : h.Shaped A) (key : κ) : h.bucket A key < h.bucketCount := Nat.mod_lt _ hs.count.pos

theorem elements_ofBuckets (nb : Nat) : (ofBuckets nb : HashContainer τ).elements = [] := List.flatten_replicate_nil

theorem wellFormed_ofBuckets {nb : Nat} (hnb : IsBucketCount nb) : (ofBuckets nb : HashContainer τ).WellFormed A where
  count := by rwa [bucketCount, ofBuckets, List.length_replicate]
  placed := Buckets.placed_replicate _ nb
  distinct := by
    rw [elements_ofBuckets]
    exact List.nodup_nil
  size := by
    rw [elements_ofBuckets]
    rfl
  first b _ := Buckets.bucket_replicate nb
  first_le := by rw [bucketCount, ofBuckets, List.length_replicate]

/-- A change to one bucket. -/
theorem Shaped.modify (hs : h.Shaped A) (hb : b < h.bucketCount) {f : List τ → List τ}
    (hplaced : ∀ x ∈ f (h.chain b), h.bucket A (A.hashkey x) = b)
    (hdistinct : Keyed.Distinct A.hashkey (h.buckets.modify b f).flatten) (size : BitVec 64) {first : Nat}
    (hle : first ≤ h.firstBucket) (hfirst : b < first → f (h.chain b) = []) :
    Shaped A ⟨h.buckets.modify b f, size, first⟩ where
  count := by
    rw [bucketCount, List.length_modify]
    exact hs.count
  placed := by
    have hcount : ∀ key, bucket A ⟨h.buckets.modify b f, size, first⟩ key = h.bucket A key := by
      intro key
      rw [bucket, bucket, bucketCount, List.length_modify, bucketCount]
    simp only [hcount]
    exact hs.placed.modify hb hplaced
  distinct := hdistinct
  first c hc := by
    rw [chain, Buckets.bucket_modify hb]
    split
    · rename_i hcb
      exact hfirst (hcb ▸ hc)
    · exact hs.first c (Nat.lt_of_lt_of_le hc hle)
  first_le := by
    rw [bucketCount, List.length_modify]
    exact hle.trans hs.first_le

/-! ## Finding -/

section Find

variable [DecidableEq κ] {k : κ}

theorem WellFormed.lookup_chain (hw : h.WellFormed A) (k : κ) :
    Keyed.lookup A.hashkey (h.chain (h.bucket A k)) k = Keyed.lookup A.hashkey h.elements k :=
  hw.placed.lookup_eq hw.distinct fun x hx => by rw [hx]

/-- `find` gives the element with the key, or the place where to insert one. -/
theorem find_spec (hw : h.WellFormed A) (k : κ) :
    (h.find A k).bucket = h.bucket A k ∧ (h.find A k).element = Keyed.lookup A.hashkey h.elements k ∧
      match (h.find A k).element with
      | some e => h.Live (h.find A k) e
      | none => (h.find A k).pprev = 0 := by
  have hfind : (h.find A k).element = ((h.chain (h.bucket A k)).findIdx? fun e => A.hashkey e = k).bind
      ((h.chain (h.bucket A k))[·]?) := by
    rw [find]
    cases (h.chain (h.bucket A k)).findIdx? fun e => A.hashkey e = k <;> rfl
  have helem : (h.find A k).element = Keyed.lookup A.hashkey h.elements k := by
    rw [hfind, ← hw.lookup_chain, Keyed.lookup, ← List.find?_eq_bind_findIdx?_getElem?]
  refine ⟨?_, helem, ?_⟩
  · rw [find]
    cases (h.chain (h.bucket A k)).findIdx? fun e => A.hashkey e = k <;> rfl
  · cases he : (h.find A k).element with
    | none =>
      revert he
      rw [find]
      cases hi : (h.chain (h.bucket A k)).findIdx? fun e => A.hashkey e = k with
      | none => exact fun _ => rfl
      | some i =>
        intro hnone
        obtain ⟨hlt, -⟩ := List.findIdx?_eq_some_iff_getElem.1 hi
        exact absurd hnone (by simp [hlt])
    | some e =>
      refine ⟨he, ?_⟩
      revert he
      rw [find]
      cases hi : (h.chain (h.bucket A k)).findIdx? fun e => A.hashkey e = k with
      | none => exact fun hnone => absurd hnone (by simp)
      | some i => exact id

/-- `find_prefer` finds what `find` does and keeps the elements. -/
theorem findPrefer_spec (hw : h.WellFormed A) (k : κ) :
    (h.findPrefer A k).1.WellFormed A ∧ (h.findPrefer A k).1.elements.Perm h.elements ∧
      (h.findPrefer A k).2.element = Keyed.lookup A.hashkey h.elements k ∧
      (h.findPrefer A k).1.bucketCount = h.bucketCount := by
  have hfind := (find_spec hw k).2.1
  rw [find] at hfind
  rw [findPrefer]
  cases hi : (h.chain (h.bucket A k)).findIdx? fun e => A.hashkey e = k with
  | none =>
    rw [hi] at hfind
    exact ⟨hw, .rfl, hfind, rfl⟩
  | some i =>
    rw [hi] at hfind
    obtain ⟨hlt, -⟩ := List.findIdx?_eq_some_iff_getElem.1 hi
    have hb := hw.bucket_lt k
    have hmove : ((h.chain (h.bucket A k))[i]?.toList ++ (h.chain (h.bucket A k)).eraseIdx i).Perm
        (h.chain (h.bucket A k)) := by
      rw [List.getElem?_eq_getElem hlt]
      exact List.getElem_cons_eraseIdx_perm hlt
    have hperm := Buckets.flatten_modify_of_perm (f := fun l => l[i]?.toList ++ l.eraseIdx i) hb hmove
    refine ⟨⟨hw.modify hb ?_ (hw.distinct.perm hperm.symm) h.size le_rfl ?_, ?_⟩, hperm, hfind,
      List.length_modify ..⟩
    · intro x hx
      exact hw.placed _ x (hmove.mem_iff.1 hx)
    · intro hfirst
      rw [hw.first _ hfirst] at hlt
      exact absurd hlt (Nat.not_lt_zero i)
    · exact hw.size.trans (congrArg _ hperm.length_eq.symm)

end Find

/-! ## Rehashing -/

theorem rehash_spec (hs : h.Shaped A) (n : BitVec 64) :
    (h.rehash A n).Shaped A ∧ (h.rehash A n).elements.Perm h.elements ∧ (h.rehash A n).size = h.size ∧
      (h.rehash A n).bucketCount = roundUp n := by
  have hcount := (roundUp_spec n).1
  by_cases heq : h.bucketCount = roundUp n
  · have hsame : h.rehash A n = h := if_pos heq
    rw [hsame]
    exact ⟨hs, .rfl, rfl, heq⟩
  · let home := fun x => (A.hashcode (A.hashkey x)).toNat % roundUp n
    have hnew : h.rehash A n = { h with
        buckets := Buckets.scatter home (List.replicate (roundUp n) []) h.elements
        firstBucket := 0 } := by
      rw [elements, Buckets.scatter, List.foldl_flatten]
      exact if_neg heq
    have hlt : ∀ x ∈ h.elements, home x < (List.replicate (roundUp n) ([] : List τ)).length := by
      intro x _
      rw [List.length_replicate]
      exact Nat.mod_lt _ hcount.pos
    have hlen : (h.rehash A n).bucketCount = roundUp n := by
      rw [hnew, bucketCount, Buckets.length_scatter, List.length_replicate]
    have hperm : (h.rehash A n).elements.Perm h.elements := by
      rw [hnew]
      refine (Buckets.flatten_scatter h.elements hlt).trans ?_
      rw [List.flatten_replicate_nil, List.append_nil]
    refine ⟨⟨by rwa [hlen], ?_, hs.distinct.perm hperm.symm, ?_, ?_⟩, hperm, by rw [hnew], hlen⟩
    · simp only [bucket, hlen]
      rw [hnew]
      exact (Buckets.placed_replicate home _).scatter _ hlt
    · rw [hnew]
      exact fun b hb => absurd hb (Nat.not_lt_zero b)
    · rw [hnew]
      exact Nat.zero_le _

/-! ## Inserting -/

section Insert

variable [DecidableEq κ]

/-- An element with a new key goes into the chain of its home. -/
theorem Shaped.insert (hs : h.Shaped A) (hb : b = h.bucket A (A.hashkey e)) {i : Nat} (hi : i ≤ (h.chain b).length)
    (hnew : Keyed.lookup A.hashkey h.elements (A.hashkey e) = none) (size : BitVec 64) :
    Shaped A ⟨h.buckets.modify b (·.insertIdx i e), size, if (h.chain b).drop i = [] then 0 else h.firstBucket⟩ ∧
      (h.buckets.modify b (·.insertIdx i e)).flatten.Perm (e :: h.elements) := by
  have hlt : b < h.bucketCount := hb ▸ hs.bucket_lt _
  have hins : ((h.chain b).insertIdx i e).Perm (e :: h.chain b) := List.perm_insertIdx e _ hi
  have hperm := Buckets.flatten_modify_of_cons (f := fun c => c.insertIdx i e) hlt hins
  refine ⟨hs.modify hlt ?_ ((Keyed.distinct_cons.2 ⟨hnew, hs.distinct⟩).perm hperm.symm) size ?_ ?_, hperm⟩
  · intro x hx
    rcases List.mem_cons.1 (hins.mem_iff.1 hx) with rfl | hx
    · exact hb.symm
    · exact hs.placed b x hx
  · split
    · exact Nat.zero_le _
    · exact le_rfl
  · split
    · exact fun h0 => absurd h0 (Nat.not_lt_zero b)
    · rename_i hrest
      intro hfirst
      rw [hs.first b hfirst, List.drop_nil] at hrest
      exact absurd rfl hrest

theorem ofNat_length_cons {l l' : List τ} (hp : l'.Perm (e :: l)) (n : BitVec 64) (hn : n = BitVec.ofNat 64 l.length) :
    n + 1 = BitVec.ofNat 64 l'.length := by
  rw [hp.length_eq, List.length_cons, hn, BitVec.ofNat_add]
  rfl

theorem insertAt_spec (hw : h.WellFormed A) (hb : it.bucket = h.bucket A (A.hashkey e))
    (hi : it.pprev ≤ (h.chain it.bucket).length) (hnew : Keyed.lookup A.hashkey h.elements (A.hashkey e) = none) :
    (h.insertAt it e).1.WellFormed A ∧ (h.insertAt it e).1.elements.Perm (e :: h.elements) := by
  obtain ⟨hshaped, hperm⟩ := hw.insert hb hi hnew (h.size + 1)
  exact ⟨⟨hshaped, ofNat_length_cons hperm _ hw.size⟩, hperm⟩

/-- The new element at the head of its chain, in a container that only has other buckets. -/
theorem linkIn_spec (it : Iterator τ) (hw : h.WellFormed A)
    (hnew : Keyed.lookup A.hashkey h.elements (A.hashkey e) = none)
    {h' : HashContainer τ} (hs' : h'.Shaped A) (hp' : h'.elements.Perm h.elements) (hsize' : h'.size = h.size + 1)
    (hb' : it.bucket = h'.bucket A (A.hashkey e)) (hi' : it.pprev = 0) :
    (h'.linkIn it e).1.WellFormed A ∧ (h'.linkIn it e).1.elements.Perm (e :: h.elements) ∧
      (h'.linkIn it e).1.Live (h'.linkIn it e).2.1 e ∧ (h'.linkIn it e).1.bucketCount = h'.bucketCount := by
  have hnew' : Keyed.lookup A.hashkey h'.elements (A.hashkey e) = none := by
    rw [hs'.distinct.lookup_perm hp', hnew]
  have hle : it.pprev ≤ (h'.chain it.bucket).length := hi' ▸ Nat.zero_le _
  obtain ⟨hshaped, hperm⟩ := hs'.insert hb' hle hnew' h'.size
  have hcons := hperm.trans (hp'.cons e)
  refine ⟨⟨hshaped, ?_⟩, hcons, ⟨rfl, ?_⟩, List.length_modify ..⟩
  · exact hsize'.trans (ofNat_length_cons hcons _ hw.size)
  · show (Buckets.bucket (h'.buckets.modify it.bucket (·.insertIdx it.pprev e)) it.bucket)[it.pprev]? = some e
    rw [Buckets.bucket_modify (hb' ▸ hs'.bucket_lt _), if_pos rfl, hi', List.insertIdx_zero]
    rfl

/-- `set` of an element whose key is not in the container, at the place `find` gives for it. -/
theorem set_insert (hw : h.WellFormed A) (hnew : Keyed.lookup A.hashkey h.elements (A.hashkey e) = none)
    (balance : Bool) :
    let r := h.set A (h.find A (A.hashkey e)) (some e) balance
    r.1.WellFormed A ∧ r.1.elements.Perm (e :: h.elements) ∧ r.1.Live r.2.1 e ∧
      r.1.bucketCount =
        if { h with size := h.size + 1 }.unbalanced && balance then
          roundUp (BitVec.ofNat 64 (h.bucketCount + 1))
        else h.bucketCount := by
  obtain ⟨hbucket, helem, hplace⟩ := find_spec hw (A.hashkey e)
  rw [hnew] at helem
  rw [helem] at hplace
  intro r
  let grown : HashContainer τ := { h with size := h.size + 1 }
  have hgrown : grown.Shaped A := ⟨hw.count, hw.placed, hw.distinct, hw.first, hw.first_le⟩
  have hr : r = if grown.unbalanced && balance then
      (grown.rehash A (BitVec.ofNat 64 (grown.bucketCount + 1))).linkIn { h.find A (A.hashkey e) with
        bucket := (grown.rehash A (BitVec.ofNat 64 (grown.bucketCount + 1))).bucket A (A.hashkey e)
        pprev := 0 } e
      else grown.linkIn (h.find A (A.hashkey e)) e := by
    show h.set A _ _ _ = _
    simp only [set, helem]
    rfl
  rw [hr]
  split
  · obtain ⟨hs', hp', hsize', hcount'⟩ := rehash_spec hgrown (BitVec.ofNat 64 (grown.bucketCount + 1))
    obtain ⟨h1, h2, h3, h4⟩ := linkIn_spec { h.find A (A.hashkey e) with bucket := _, pprev := 0 } hw hnew hs' hp'
      hsize' rfl rfl
    exact ⟨h1, h2, h3, h4.trans hcount'⟩
  · exact linkIn_spec _ hw hnew hgrown .rfl rfl hbucket hplace

end Insert

/-! ## Replacing -/

/-- `set` at a live iterator, of an element with the same key. -/
theorem set_replace (hw : h.WellFormed A) {old : τ} (hl : h.Live it old) (hkey : A.hashkey e = A.hashkey old)
    (balance : Bool) :
    let r := h.set A it (some e) balance
    r.1.WellFormed A ∧ r.1.Live r.2.1 e ∧ r.1.bucketCount = h.bucketCount ∧
      ∃ rest, h.elements.Perm (old :: rest) ∧ r.1.elements.Perm (e :: rest) := by
  intro r
  obtain ⟨hi, hold⟩ := List.getElem?_eq_some_iff.1 hl.link
  have hmem : old ∈ h.chain it.bucket := hold ▸ List.getElem_mem hi
  have hb : it.bucket < h.bucketCount := Buckets.lt_of_mem hmem
  have hr : r = ({ h with buckets := h.buckets.modify it.bucket (·.set it.pprev e) }, { it with element := some e },
      some old) := by
    show h.set A it (some e) balance = _
    simp only [set, hl.element]
  obtain ⟨rest, hflat, hmodify⟩ := Buckets.exists_flatten_modify hb
  have hcut : (h.chain it.bucket).Perm (old :: (h.chain it.bucket).eraseIdx it.pprev) := by
    rw [← hold]
    exact (List.getElem_cons_eraseIdx_perm hi).symm
  have hset : ((h.chain it.bucket).set it.pprev e).Perm (e :: (h.chain it.bucket).eraseIdx it.pprev) :=
    List.set_perm_cons_eraseIdx hi e
  have hbefore : h.elements.Perm (old :: ((h.chain it.bucket).eraseIdx it.pprev ++ rest)) :=
    hflat.trans (hcut.append_right rest)
  have hafter : (h.buckets.modify it.bucket (·.set it.pprev e)).flatten.Perm
      (e :: ((h.chain it.bucket).eraseIdx it.pprev ++ rest)) :=
    (hmodify (·.set it.pprev e)).trans (hset.append_right rest)
  have hdistinct : Keyed.Distinct A.hashkey (e :: ((h.chain it.bucket).eraseIdx it.pprev ++ rest)) := by
    have hd := hw.distinct.perm hbefore
    rw [Keyed.Distinct, List.map_cons] at hd ⊢
    rwa [hkey]
  rw [hr]
  refine ⟨⟨hw.modify hb ?_ (hdistinct.perm hafter.symm) h.size le_rfl ?_, ?_⟩, ⟨rfl, ?_⟩,
    List.length_modify .., _, hbefore, hafter⟩
  · intro x hx
    rcases List.mem_cons.1 (hset.mem_iff.1 hx) with rfl | hx
    · rw [hkey]
      exact hw.placed _ old hmem
    · exact hw.placed _ x (List.mem_of_mem_eraseIdx hx)
  · intro hfirst
    rw [hw.first _ hfirst] at hi
    exact absurd hi (Nat.not_lt_zero _)
  · refine hw.size.trans (congrArg _ ?_)
    rw [hbefore.length_eq]
    exact hafter.length_eq.symm
  · show (Buckets.bucket (h.buckets.modify it.bucket (·.set it.pprev e)) it.bucket)[it.pprev]? = some e
    rw [Buckets.bucket_modify hb, if_pos rfl]
    exact List.getElem?_set_self hi

/-! ## Iterating -/

/-- The elements an iterator has still before it. -/
def ahead (h : HashContainer τ) (it : Iterator τ) : List τ := Buckets.ahead h.buckets it.bucket it.pprev

/-- The elements an iterator has passed. -/
def before (h : HashContainer τ) (it : Iterator τ) : List τ := Buckets.before h.buckets it.bucket it.pprev

theorem before_append_ahead (h : HashContainer τ) (it : Iterator τ) : h.before it ++ h.ahead it = h.elements :=
  Buckets.before_append_ahead _ _ _

/-- Where a loop over the container stands: at an element, or behind the last bucket. -/
def Stands (h : HashContainer τ) (it : Iterator τ) : Prop :=
  (∃ e, h.Live it e) ∨ it = ⟨none, 0, h.bucketCount⟩

theorem Stands.congr {h' : HashContainer τ} (hs : h.Stands it) (hb : h'.buckets = h.buckets) : h'.Stands it := by
  rcases hs with ⟨e, hl⟩ | hstop
  · exact .inl ⟨e, hl.element, by rw [chain, hb]; exact hl.link⟩
  · exact .inr (by rw [bucketCount, hb]; exact hstop)

theorem Live.bucket_lt (hl : h.Live it e) : it.bucket < h.bucketCount :=
  Buckets.lt_of_mem (List.mem_of_getElem? hl.link)

theorem Live.ahead (hl : h.Live it e) : h.ahead it = e :: Buckets.ahead h.buckets it.bucket (it.pprev + 1) := by
  obtain ⟨hlt, he⟩ := List.getElem?_eq_some_iff.1 hl.link
  rw [← he]
  exact Buckets.ahead_eq_cons hlt

theorem Live.before (hl : h.Live it e) : Buckets.before h.buckets it.bucket (it.pprev + 1) = h.before it ++ [e] := by
  obtain ⟨hlt, he⟩ := List.getElem?_eq_some_iff.1 hl.link
  rw [← he]
  exact Buckets.before_succ hlt

theorem ahead_end : h.ahead ⟨none, 0, h.bucketCount⟩ = [] := Buckets.ahead_length _ _

/-- The scan stops at the first element from bucket `b` on. -/
theorem scan_spec (hb : b ≤ h.bucketCount) :
    h.Stands (h.scan b) ∧ h.ahead (h.scan b) = Buckets.ahead h.buckets b 0 ∧
    h.before (h.scan b) = Buckets.before h.buckets b 0 := by
  rw [scan]
  cases hi : (h.buckets.drop b).findIdx? fun c => !c.isEmpty with
  | none =>
    have hempty : ∀ a, b ≤ a → a < h.bucketCount → Buckets.bucket h.buckets a = [] := by
      intro a hba ha
      rw [Buckets.bucket_of_lt ha]
      have hmem : h.buckets[a] ∈ h.buckets.drop b := by
        apply List.mem_of_getElem? (i := a - b)
        rw [List.getElem?_drop, Nat.add_sub_cancel' hba, List.getElem?_eq_getElem ha]
      simpa using List.findIdx?_eq_none_iff.1 hi _ hmem
    exact ⟨.inr rfl, (Buckets.ahead_of_empty hb hempty).symm, (Buckets.before_of_empty hb hempty).symm⟩
  | some i =>
    obtain ⟨hlt, hfound, hskipped⟩ := List.findIdx?_eq_some_iff_getElem.1 hi
    have hlt' : b + i < h.bucketCount := by
      rw [List.length_drop] at hlt
      show b + i < h.buckets.length
      omega
    have hchain : h.chain (b + i) = (h.buckets.drop b)[i] := by
      rw [List.getElem_drop]
      exact Buckets.bucket_of_lt hlt'
    have hempty : ∀ a, b ≤ a → a < b + i → Buckets.bucket h.buckets a = [] := by
      intro a hba ha
      have hskip := hskipped (a - b) (by omega)
      rw [Buckets.bucket_of_lt (Nat.lt_trans ha hlt')]
      simpa [List.getElem_drop, Nat.add_sub_cancel' hba] using hskip
    refine ⟨.inl ?_, (Buckets.ahead_of_empty (Nat.le_add_right b i) hempty).symm,
      (Buckets.before_of_empty (Nat.le_add_right b i) hempty).symm⟩
    cases hc : h.chain (b + i) with
    | nil =>
      rw [← hchain, hc] at hfound
      exact absurd hfound (by simp)
    | cons e rest =>
      refine ⟨e, ?_, ?_⟩
      · show (h.chain (b + i)).head? = some e
        rw [hc, List.head?_cons]
      · show (h.chain (b + i))[0]? = some e
        rw [hc, List.getElem?_cons_zero]

/-- `operator++` passes one element. -/
theorem advance_spec (hl : h.Live it e) : h.Stands (h.advance it) ∧ h.ahead it = e :: h.ahead (h.advance it) ∧
    h.before (h.advance it) = h.before it ++ [e] := by
  rw [hl.ahead, ← hl.before, advance, hl.element]
  by_cases hnext : it.pprev + 1 < (h.chain it.bucket).length
  · rw [if_pos (by simpa using hnext)]
    refine ⟨.inl ⟨(h.chain it.bucket)[it.pprev + 1], List.getElem?_eq_getElem hnext,
      List.getElem?_eq_getElem hnext⟩, rfl, rfl⟩
  · rw [if_neg (by simpa using hnext), if_pos (Nat.ne_of_lt hl.bucket_lt)]
    obtain ⟨hstands, hahead, hbefore⟩ := scan_spec (Nat.succ_le_of_lt hl.bucket_lt)
    rw [hahead, hbefore]
    exact ⟨hstands, congrArg _ (Buckets.ahead_of_le (Nat.le_of_not_lt hnext)),
      (Buckets.before_of_le (Nat.le_of_not_lt hnext)).symm⟩

/-- `begin` stands before all elements, at whichever bucket it starts. -/
theorem begin_spec (hw : h.WellFormed A) : h.begin.1.WellFormed A ∧ h.begin.1.buckets = h.buckets ∧
    h.begin.1.Stands h.begin.2 ∧ h.begin.1.ahead h.begin.2 = h.elements ∧ h.begin.1.before h.begin.2 = [] := by
  have hbefore : Buckets.before h.buckets h.firstBucket 0 = [] := by
    rw [Buckets.before_zero]
    exact Buckets.flatten_take_of_empty hw.first
  have hahead : Buckets.ahead h.buckets h.firstBucket 0 = h.elements := by
    rw [elements, ← Buckets.before_append_ahead h.buckets h.firstBucket 0, hbefore, List.nil_append]
  rw [begin]
  by_cases hend : h.firstBucket = h.bucketCount
  · rw [if_pos hend]
    exact ⟨hw, rfl, .inr (by rw [hend]), hahead, hbefore⟩
  · rw [if_neg hend]
    have hlt : h.firstBucket < h.bucketCount := Nat.lt_of_le_of_ne hw.first_le hend
    cases hc : (h.chain h.firstBucket).head? with
    | some e => exact ⟨hw, rfl, .inl ⟨e, rfl, by rwa [← List.head?_eq_getElem?]⟩, hahead, hbefore⟩
    | none =>
      have hempty : h.chain h.firstBucket = [] := List.head?_eq_none_iff.1 hc
      have hadv : h.advance ⟨none, 0, h.firstBucket⟩ = h.scan (h.firstBucket + 1) := by
        rw [advance, if_neg (by simp), if_pos (Nat.ne_of_lt hlt)]
      obtain ⟨hstands, hahead1, hbefore1⟩ := scan_spec (Nat.succ_le_of_lt hlt)
      have hle : (Buckets.bucket h.buckets h.firstBucket).length ≤ 0 := by
        show (h.chain h.firstBucket).length ≤ 0
        rw [hempty]
        exact le_rfl
      rw [← Buckets.ahead_of_le hle, hahead] at hahead1
      rw [← Buckets.before_of_le hle, hbefore] at hbefore1
      rw [hadv]
      refine ⟨⟨⟨hw.count, hw.placed, hw.distinct, ?_, ?_⟩, hw.size⟩, rfl, hstands.congr rfl, hahead1,
        hbefore1⟩
      · intro b hb
        have hnil : ((h.buckets.take (h.scan (h.firstBucket + 1)).bucket).flatten : List τ) = [] := by
          have hnil := hbefore1
          rw [before, Buckets.before, List.append_eq_nil_iff] at hnil
          exact hnil.1
        exact Buckets.bucket_of_flatten_take hnil hb
      · rcases hstands with ⟨e, hl⟩ | hstop
        · exact hl.bucket_lt.le
        · rw [hstop]
          exact le_rfl

/-- A loop visits what the iterator has before it, each element once. -/
theorem visit_spec : ∀ (fuel : Nat) {it : Iterator τ}, h.Stands it → (h.ahead it).length < fuel →
    h.visit fuel it = some (h.ahead it)
  | 0, it, _, hfuel => absurd hfuel (Nat.not_lt_zero _)
  | fuel + 1, it, hs, hfuel => by
    rw [visit]
    rcases hs with ⟨e, hl⟩ | rfl
    · obtain ⟨hstands, hahead, -⟩ := advance_spec hl
      rw [hahead, List.length_cons] at hfuel
      simp only [hl.element, visit_spec fuel hstands (Nat.lt_of_succ_lt_succ hfuel), Option.map_some, hahead]
    · rw [ahead_end]

/-! ## Erasing -/

/-- Erasing at an iterator removes its element and moves on to the next one; what the iterator has
passed stays passed. -/
theorem unlink_spec (hw : h.WellFormed A) (hl : h.Live it e) :
    let r := h.unlink it
    r.2.2 = some e ∧ r.1.WellFormed A ∧ h.elements.Perm (e :: r.1.elements) ∧ r.1.bucketCount = h.bucketCount ∧
      r.1.Stands r.2.1 ∧ h.ahead it = e :: r.1.ahead r.2.1 ∧ r.1.before r.2.1 = h.before it := by
  intro r
  obtain ⟨hi, he⟩ := List.getElem?_eq_some_iff.1 hl.link
  have hb := hl.bucket_lt
  let h' :
    HashContainer τ := { h with buckets := h.buckets.modify it.bucket (·.eraseIdx it.pprev), size := h.size - 1 }
  have hcount : h'.bucketCount = h.bucketCount := List.length_modify ..
  have hperm : h.elements.Perm (e :: h'.elements) := by
    obtain ⟨rest, hflat, hmodify⟩ := Buckets.exists_flatten_modify hb
    refine hflat.trans (List.Perm.trans ?_ ((hmodify (·.eraseIdx it.pprev)).symm.cons e))
    rw [← he]
    exact ((List.getElem_cons_eraseIdx_perm hi).symm.append_right rest)
  have hsize : h.size - 1 = BitVec.ofNat 64 h'.elements.length := by
    rw [hw.size, hperm.length_eq, List.length_cons, BitVec.ofNat_add]
    exact BitVec.add_sub_cancel _ _
  have hw' : h'.WellFormed A := by
    refine ⟨hw.modify hb ?_ ?_ _ le_rfl ?_, hsize⟩
    · intro x hx
      exact hw.placed _ x (List.mem_of_mem_eraseIdx hx)
    · exact (hw.distinct.perm hperm).of_sublist (List.sublist_cons_self e _)
    · intro hfirst
      rw [hw.first _ hfirst] at hi
      exact absurd hi (Nat.not_lt_zero _)
  have hahead : h.ahead it = e :: Buckets.ahead h'.buckets it.bucket it.pprev := by
    have hrest : ((Buckets.bucket h.buckets it.bucket).eraseIdx it.pprev).drop it.pprev =
        (Buckets.bucket h.buckets it.bucket).drop (it.pprev + 1) := Buckets.drop_eraseIdx hi
    rw [hl.ahead, Buckets.ahead_modify hb, hrest, Buckets.ahead]
  have hbefore : Buckets.before h'.buckets it.bucket it.pprev = h.before it :=
    Buckets.before_modify hb (List.take_eraseIdx_eq_take_of_le _ _ _ le_rfl)
  have hr : r = (h', if (h'.chain it.bucket)[it.pprev]?.isNone then
      h'.advance { it with element := (h'.chain it.bucket)[it.pprev]? } else
      { it with element := (h'.chain it.bucket)[it.pprev]? }, some e) := by
    show h.unlink it = _
    simp only [unlink, hl.element]
    rfl
  rw [hr]
  refine ⟨rfl, hw', hperm, hcount, ?_⟩
  cases hnext : (h'.chain it.bucket)[it.pprev]? with
  | some e' => exact ⟨.inl ⟨e', rfl, hnext⟩, hahead, hbefore⟩
  | none =>
    have hle := List.getElem?_eq_none_iff.1 hnext
    obtain ⟨hstands, hahead1, hbefore1⟩ := scan_spec (h := h') (b := it.bucket + 1)
      (hcount ▸ Nat.succ_le_of_lt hb)
    rw [← Buckets.ahead_of_le hle] at hahead1
    rw [← Buckets.before_of_le hle] at hbefore1
    have hadv : h'.advance { it with element := none } = h'.scan (it.bucket + 1) := by
      rw [advance, if_neg (by simp), if_pos (hcount ▸ Nat.ne_of_lt hb)]
    simp only [Option.isNone_none, if_true, hadv]
    exact ⟨hstands, by rw [hahead1, hahead], hbefore1.trans hbefore⟩

theorem erase_eq (h : HashContainer τ) (it : Iterator τ) : h.erase A it = h.unlink it := by
  rw [erase, set]

/-! ## Balance -/

/-- There are two elements to a bucket at most, or as many buckets as there can be. -/
def Balanced (h : HashContainer τ) : Prop :=
  h.elements.length ≤ 2 * h.bucketCount ∨ h.bucketCount = maxBucketCount.toNat

theorem Balanced.of_le {h' : HashContainer τ} (hb : h.Balanced) (hlen : h'.elements.length ≤ h.elements.length)
    (hcount : h'.bucketCount = h.bucketCount) : h'.Balanced := by
  unfold Balanced at *
  rw [hcount]
  exact hb.imp_left hlen.trans

theorem balanced_of_nil (hnil : h.elements = []) : h.Balanced := by
  left
  rw [hnil]
  exact Nat.zero_le _

theorem maxBucketCount_toNat : maxBucketCount.toNat = 2 ^ 64 - 1 := rfl

/-- `unbalanced` compares exactly, as long as there are fewer buckets than there can be. -/
theorem unbalanced_iff (hcount : IsBucketCount h.bucketCount) {n : Nat} (hn : n ≤ 2 * h.bucketCount + 1)
    (hsize : h.size = BitVec.ofNat 64 n) :
    h.unbalanced = true ↔ 2 * h.bucketCount < n ∧ h.bucketCount < maxBucketCount.toNat := by
  rw [unbalanced, decide_eq_true_iff, hsize, BitVec.toNat_ofNat, maxBucketCount_toNat]
  refine and_congr_left fun hmax => ?_
  have htwice := hcount.lt_of_lt ⟨64, by decide, le_rfl, rfl⟩ hmax
  rw [Nat.mod_eq_of_lt (by omega), Nat.mod_eq_of_lt (by omega)]

/-- An insertion that may rebalance keeps the container balanced. -/
theorem Balanced.set_insert [DecidableEq κ] (hb : h.Balanced) (hw : h.WellFormed A)
    (hnew : Keyed.lookup A.hashkey h.elements (A.hashkey e) = none) :
    (h.set A (h.find A (A.hashkey e)) (some e) true).1.Balanced := by
  obtain ⟨-, hperm, -, hcount⟩ := HashContainer.set_insert hw hnew true
  have hlen := hperm.length_eq
  rw [List.length_cons] at hlen
  rw [Bool.and_true] at hcount
  have hmax := hw.count.lt
  by_cases hfull : h.bucketCount = maxBucketCount.toNat
  · have hnot : ¬ ({ h with size := h.size + 1 } : HashContainer τ).unbalanced = true := by
      rw [unbalanced, decide_eq_true_iff]
      rintro ⟨-, hlt⟩
      exact absurd hfull (Nat.ne_of_lt hlt)
    rw [if_neg hnot] at hcount
    exact .inr (hcount.trans hfull)
  · have hle := hb.resolve_right hfull
    have hlt : h.bucketCount < maxBucketCount.toNat := by
      rw [maxBucketCount_toNat] at hfull ⊢
      omega
    have hiff := unbalanced_iff (h := { h with size := h.size + 1 }) hw.count (n := h.elements.length + 1)
      (Nat.succ_le_succ hle) (by rw [BitVec.ofNat_add, ← hw.size]; rfl)
    left
    rw [hlen, hcount]
    split
    · have hround := roundUp_spec (BitVec.ofNat 64 (h.bucketCount + 1))
      rw [BitVec.toNat_ofNat, Nat.mod_eq_of_lt (by rw [maxBucketCount_toNat] at hlt; omega)] at hround
      have htwice := hw.count.lt_of_lt hround.1 hround.2
      omega
    · rename_i hnot
      have hnot' := fun h2 => hnot (hiff.2 ⟨h2, hlt⟩)
      exact Nat.le_of_not_lt hnot'

end HashContainer

end Embark
