/-
`HashTable` over `HashContainer`: pairs of keys and values with distinct keys. A table is a map from
keys to values; any run of calls on two tables answers as the two maps do.
-/
import Embark.Click.HashContainer
import Mathlib.Logic.Function.Basic

namespace Embark

/-! ## Pairs as a map -/

namespace Keyed

variable {κ ν : Type} [DecidableEq κ]

/-- The value that belongs to a key. -/
def value (l : List (κ × ν)) (k : κ) : Option ν := (lookup Prod.fst l k).map Prod.snd

variable {l l' : List (κ × ν)} {k : κ} {v : ν}

theorem value_cons (k : κ) (v : ν) (l : List (κ × ν)) :
    value ((k, v) :: l) = Function.update (value l) k (some v) := by
  funext k'
  by_cases h : k = k'
  · subst h
    rw [Function.update_self, value, lookup_cons, if_pos rfl]
    rfl
  · rw [Function.update_of_ne (Ne.symm h), value, lookup_cons, if_neg h, value]

theorem Distinct.value_perm (h : Distinct Prod.fst l) (hp : l.Perm l') : value l = value l' := by
  funext k
  rw [value, h.lookup_perm hp, value]

theorem Distinct.value_eq_some_iff (h : Distinct Prod.fst l) : value l k = some v ↔ (k, v) ∈ l := by
  rw [value, Option.map_eq_some_iff]
  constructor
  · rintro ⟨⟨k', v'⟩, hl, rfl⟩
    obtain ⟨hm, rfl⟩ := (lookup_eq_some_iff h).1 hl
    exact hm
  · intro hm
    exact ⟨(k, v), (lookup_eq_some_iff h).2 ⟨hm, rfl⟩, rfl⟩

/-- Without its pair a key has no value. -/
theorem Distinct.value_tail (h : Distinct Prod.fst ((k, v) :: l)) :
    value l = Function.update (value ((k, v) :: l)) k none := by
  have hk : value l k = none := by rw [value, (distinct_cons.1 h).1, Option.map_none]
  rw [value_cons, Function.update_idem, ← hk, Function.update_eq_self]

end Keyed

/-! ## Tables -/

/-- `HashTable<K, V>`: `_rep` and `_default_value`. -/
structure HashTable (κ ν : Type) where
  rep : HashContainer (κ × ν)
  defaultValue : ν
deriving DecidableEq, Repr

namespace HashTable

open HashContainer (Iterator)

variable {κ ν : Type} (hashcode : κ → BitVec 64)

/-- How the container hashes pairs. -/
def adapter : HashContainerAdapter (κ × ν) κ := ⟨Prod.fst, hashcode⟩

/-- `HashTable(d)`. -/
def ofDefault (d : ν) : HashTable κ ν := ⟨.empty, d⟩

/-- The assignment to `second` of the element at an iterator. -/
def assignAt (t : HashTable κ ν) (it : Iterator (κ × ν)) (v : ν) : HashTable κ ν :=
  match it.element with
  | none => t
  | some e => { t with rep := { t.rep with buckets := t.rep.buckets.modify it.bucket (·.set it.pprev (e.1, v)) } }

/-- `rehash`. -/
def rehash (t : HashTable κ ν) (n : BitVec 64) : HashTable κ ν :=
  { t with rep := t.rep.rehash (adapter hashcode) n }

/-- The loop of `clear`; none if it takes more than `fuel` steps. -/
def clearLoop : Nat → HashContainer (κ × ν) → Iterator (κ × ν) → Option (HashContainer (κ × ν))
  | 0, _, _ => none
  | fuel + 1, h, it =>
    match it.element with
    | none => some h
    | some _ =>
      let (h', it', _) := h.erase (adapter hashcode) it
      clearLoop fuel h' it'

/-- `clear`, element by element. -/
def clear (t : HashTable κ ν) : Option (HashTable κ ν) := do
  let (h, it) := t.rep.begin
  let rep ← clearLoop hashcode (t.rep.elements.length + 1) h it
  return { t with rep }

/-- The pairs a loop over the table visits; the table remembers where the first of them was. -/
def pairs (t : HashTable κ ν) : Option (HashTable κ ν × List (κ × ν)) := do
  let (h, it) := t.rep.begin
  let l ← h.visit (t.rep.elements.length + 1) it
  return ({ t with rep := h }, l)

/-- The loop of `clone_elements`: `b` is the bucket `j` is in. -/
def cloneLoop (o : HashContainer (κ × ν)) :
    Nat → HashContainer (κ × ν) → Iterator (κ × ν) → Nat → Iterator (κ × ν) →
    Option (HashContainer (κ × ν))
  | 0, _, _, _, _ => none
  | fuel + 1, h, j, b, i =>
    match i.element with
    | none => some h
    | some e =>
      let j := if b ≠ i.bucket then ⟨(h.chain i.bucket).head?, 0, i.bucket⟩ else j
      let (h', j') := h.insertAt j e
      cloneLoop o fuel h' j' i.bucket (o.advance i)

/-- `HashTable(x)`: the copy, and `x`. -/
def copyOf (x : HashTable κ ν) : Option (HashTable κ ν × HashTable κ ν) := do
  let (o, i) := x.rep.begin
  let new := HashContainer.withBuckets (BitVec.ofNat 64 x.rep.bucketCount)
  let rep ← cloneLoop o (x.rep.elements.length + 1) new ⟨none, 0, 2 ^ 64 - 1⟩ (2 ^ 64 - 1) i
  return (⟨rep, x.defaultValue⟩, { x with rep := o })

section Keys

variable [DecidableEq κ]

/-- What `find` and `get_pointer` give. -/
def find (t : HashTable κ ν) (key : κ) : Option ν := (t.rep.find (adapter hashcode) key).element.map Prod.snd

/-- `find_prefer`. -/
def findPrefer (t : HashTable κ ν) (key : κ) : HashTable κ ν × Option ν :=
  let (h, it) := t.rep.findPrefer (adapter hashcode) key
  ({ t with rep := h }, it.element.map Prod.snd)

/-- `get`. -/
def get (t : HashTable κ ν) (key : κ) : ν := (find hashcode t key).getD t.defaultValue

/-- `find_insert`. -/
def findInsert (t : HashTable κ ν) (v : κ × ν) : HashTable κ ν × Iterator (κ × ν) :=
  let i := t.rep.find (adapter hashcode) v.1
  match i.element with
  | some _ => (t, i)
  | none =>
    let (h, i', _) := t.rep.set (adapter hashcode) i (some v) true
    ({ t with rep := h }, i')

/-- `operator[]`: the element whose value is referred to. -/
def index (t : HashTable κ ν) (key : κ) : HashTable κ ν × Iterator (κ × ν) :=
  findInsert hashcode t (key, t.defaultValue)

/-- The statement `t[key] = v`. -/
def indexAssign (t : HashTable κ ν) (key : κ) (v : ν) : HashTable κ ν :=
  let (t', i) := index hashcode t key
  t'.assignAt i v

/-- `set`. -/
def set (t : HashTable κ ν) (key : κ) (v : ν) : HashTable κ ν × Bool :=
  let i := t.rep.find (adapter hashcode) key
  match i.element with
  | some _ => (t.assignAt i v, false)
  | none =>
    let (h, _, _) := t.rep.set (adapter hashcode) i (some (key, v)) true
    ({ t with rep := h }, true)

/-- `erase` of a key. -/
def eraseKey (t : HashTable κ ν) (key : κ) : HashTable κ ν × Nat :=
  let (h, old) := t.rep.eraseKey (adapter hashcode) key
  ({ t with rep := h }, if old.isSome then 1 else 0)

/-- `operator=`, for another table: both tables after it. -/
def assignFrom (t x : HashTable κ ν) : Option (HashTable κ ν × HashTable κ ν) := do
  let t ← clear hashcode t
  let t := if t.rep.bucketCount < x.rep.bucketCount then t.rehash hashcode (BitVec.ofNat 64 x.rep.bucketCount) else t
  let (x, l) ← x.pairs
  let t := l.foldl (fun t v => (findInsert hashcode t v).1) t
  return ({ t with defaultValue := x.defaultValue }, x)

end Keys

/-! ## Tables as maps -/

/-- The table holds the map `m`. -/
structure Represents (t : HashTable κ ν) (m : κ → Option ν) [DecidableEq κ] : Prop where
  wellFormed : t.rep.WellFormed (adapter hashcode)
  value : Keyed.value t.rep.elements = m

variable [DecidableEq κ] {hashcode} {t : HashTable κ ν} {m : κ → Option ν} {it : Iterator (κ × ν)}
  {k : κ} {v : ν}

theorem represents_ofDefault (d : ν) : (ofDefault d : HashTable κ ν).Represents hashcode fun _ => none where
  wellFormed := HashContainer.wellFormed_ofBuckets HashContainer.isBucketCount_initial
  value := by
    rw [ofDefault, HashContainer.empty, HashContainer.elements_ofBuckets]
    rfl

theorem Represents.lookup (hr : t.Represents hashcode m) (k : κ) :
    (Keyed.lookup Prod.fst t.rep.elements k).map Prod.snd = m k := congrFun hr.value k

theorem Represents.perm (hr : t.Represents hashcode m) {h : HashContainer (κ × ν)}
    (hw : h.WellFormed (adapter hashcode)) (hp : h.elements.Perm t.rep.elements) :
    Represents hashcode { t with rep := h } m :=
  ⟨hw, by rw [Keyed.Distinct.value_perm hw.distinct hp, hr.value]⟩

/-- `find` reads the map. -/
theorem Represents.find (hr : t.Represents hashcode m) (k : κ) : t.find hashcode k = m k := by
  rw [HashTable.find, (HashContainer.find_spec hr.wellFormed k).2.1]
  exact hr.lookup k

theorem Represents.findPrefer (hr : t.Represents hashcode m) (k : κ) :
    (t.findPrefer hashcode k).1.Represents hashcode m ∧ (t.findPrefer hashcode k).2 = m k := by
  obtain ⟨hw, hp, helem, -⟩ := HashContainer.findPrefer_spec hr.wellFormed k
  exact ⟨hr.perm hw hp, (congrArg (Option.map Prod.snd) helem).trans (hr.lookup k)⟩

/-- Where `find` stops for a key that has a value. -/
theorem Represents.live_find (hr : t.Represents hashcode m) (hk : m k = some v) :
    t.rep.Live (t.rep.find (adapter hashcode) k) (k, v) := by
  obtain ⟨-, helem, hplace⟩ := HashContainer.find_spec hr.wellFormed k
  have hlookup := hr.lookup k
  rw [hk, Option.map_eq_some_iff] at hlookup
  obtain ⟨⟨k', v'⟩, hl, rfl⟩ := hlookup
  obtain rfl : k' = k := Keyed.key_of_lookup hl
  rw [show Keyed.lookup (adapter hashcode).hashkey t.rep.elements k' = _ from hl] at helem
  rwa [helem] at hplace

theorem Represents.find_none (hr : t.Represents hashcode m) (hk : m k = none) :
    (t.rep.find (adapter hashcode) k).element = none ∧
      Keyed.lookup (adapter hashcode).hashkey t.rep.elements k = none := by
  have hlookup := hr.lookup k
  rw [hk, Option.map_eq_none_iff] at hlookup
  exact ⟨(HashContainer.find_spec hr.wellFormed k).2.1.trans hlookup, hlookup⟩

/-- A pair with a new key. -/
theorem Represents.insert (hr : t.Represents hashcode m) (hk : m k = none) (v : ν) (balance : Bool) :
    let r := t.rep.set (adapter hashcode) (t.rep.find (adapter hashcode) k) (some (k, v)) balance
    Represents hashcode { t with rep := r.1 } (Function.update m k (some v)) ∧ r.1.Live r.2.1 (k, v) := by
  obtain ⟨hw, hp, hl, -⟩ := HashContainer.set_insert (e := (k, v)) hr.wellFormed (hr.find_none hk).2 balance
  refine ⟨⟨hw, (Keyed.Distinct.value_perm hw.distinct hp).trans ?_⟩, hl⟩
  rw [Keyed.value_cons, hr.value]

/-- An assignment through an iterator. -/
theorem Represents.assignAt (hr : t.Represents hashcode m) {old : ν} (hl : t.rep.Live it (k, old)) (v : ν) :
    (t.assignAt it v).Represents hashcode (Function.update m k (some v)) := by
  obtain ⟨hw, -, -, rest, hbefore, hafter⟩ := HashContainer.set_replace (e := (k, v)) hr.wellFormed hl rfl false
  have heq : (t.assignAt it v).rep = (t.rep.set (adapter hashcode) it (some (k, v)) false).1 := by
    simp only [HashTable.assignAt, HashContainer.set, hl.element]
  rw [← heq] at hw hafter
  refine ⟨hw, ?_⟩
  rw [Keyed.Distinct.value_perm hw.distinct hafter, Keyed.value_cons, ← hr.value,
    Keyed.Distinct.value_perm hr.wellFormed.distinct hbefore, Keyed.value_cons, Function.update_idem]

/-- `find_insert` adds the pair where the key has no value. -/
theorem Represents.findInsert (hr : t.Represents hashcode m) (k : κ) (v : ν) :
    let r := HashTable.findInsert hashcode t (k, v)
    r.1.Represents hashcode (Function.update m k (some ((m k).getD v))) ∧ r.1.rep.Live r.2 (k, (m k).getD v) ∧
      r.1.defaultValue = t.defaultValue := by
  cases hk : m k with
  | some w =>
    have hl := hr.live_find hk
    have hsame : HashTable.findInsert hashcode t (k, v) = (t, t.rep.find (adapter hashcode) k) := by
      simp only [HashTable.findInsert, hl.element]
    rw [hsame, Option.getD_some, ← hk, Function.update_eq_self]
    exact ⟨hr, hl, rfl⟩
  | none =>
    have hnew : HashTable.findInsert hashcode t (k, v) =
        ({ t with rep := (t.rep.set (adapter hashcode) (t.rep.find (adapter hashcode) k) (some (k, v)) true).1 },
          (t.rep.set (adapter hashcode) (t.rep.find (adapter hashcode) k) (some (k, v)) true).2.1) := by
      simp only [HashTable.findInsert, (hr.find_none hk).1]
    obtain ⟨hrep, hl⟩ := hr.insert hk v true
    rw [hnew, Option.getD_none]
    exact ⟨hrep, hl, rfl⟩

theorem Represents.indexAssign (hr : t.Represents hashcode m) (k : κ) (v : ν) :
    (t.indexAssign hashcode k v).Represents hashcode (Function.update m k (some v)) ∧
      (t.indexAssign hashcode k v).defaultValue = t.defaultValue := by
  obtain ⟨hrep, hl, hd⟩ := hr.findInsert k t.defaultValue
  have hassign := hrep.assignAt hl v
  rw [Function.update_idem] at hassign
  refine ⟨hassign, ?_⟩
  rw [← hd]
  simp only [HashTable.indexAssign, HashTable.assignAt, HashTable.index, hl.element]

theorem Represents.set (hr : t.Represents hashcode m) (k : κ) (v : ν) :
    (t.set hashcode k v).1.Represents hashcode (Function.update m k (some v)) ∧
      (t.set hashcode k v).1.defaultValue = t.defaultValue ∧ (t.set hashcode k v).2 = (m k).isNone := by
  cases hk : m k with
  | some w =>
    have hl := hr.live_find hk
    have hset : t.set hashcode k v = (t.assignAt (t.rep.find (adapter hashcode) k) v, false) := by
      simp only [HashTable.set, hl.element]
    rw [hset]
    refine ⟨hr.assignAt hl v, ?_, rfl⟩
    simp only [HashTable.assignAt, hl.element]
  | none =>
    have hset : t.set hashcode k v =
        ({ t with rep := (t.rep.set (adapter hashcode) (t.rep.find (adapter hashcode) k) (some (k, v)) true).1 },
          true) := by
      simp only [HashTable.set, (hr.find_none hk).1]
    rw [hset]
    exact ⟨(hr.insert hk v true).1, rfl, rfl⟩

/-- `erase` of a key removes its pair, if there is one. -/
theorem Represents.eraseKey (hr : t.Represents hashcode m) (k : κ) :
    (t.eraseKey hashcode k).1.Represents hashcode (Function.update m k none) ∧
      (t.eraseKey hashcode k).1.defaultValue = t.defaultValue ∧
      (t.eraseKey hashcode k).2 = if (m k).isSome then 1 else 0 := by
  cases hk : m k with
  | some w =>
    obtain ⟨hold, hw, hp, -⟩ := HashContainer.unlink_spec hr.wellFormed (hr.live_find hk)
    have herase : t.eraseKey hashcode k =
        ({ t with rep := (t.rep.unlink (t.rep.find (adapter hashcode) k)).1 }, 1) := by
      simp only [HashTable.eraseKey, HashContainer.eraseKey, HashContainer.set, hold]
      rfl
    rw [herase]
    refine ⟨⟨hw, ?_⟩, rfl, rfl⟩
    have hd := hr.wellFormed.distinct
    rw [Keyed.Distinct.value_tail (hd.perm hp), ← Keyed.Distinct.value_perm hd hp, hr.value]
  | none =>
    have herase : t.eraseKey hashcode k = (t, 0) := by
      simp only [HashTable.eraseKey, HashContainer.eraseKey, HashContainer.set, HashContainer.unlink,
        (hr.find_none hk).1]
      rfl
    rw [herase, ← hk, Function.update_eq_self]
    exact ⟨hr, rfl, by rw [hk]; rfl⟩

theorem Represents.rehash (hr : t.Represents hashcode m) (n : BitVec 64) :
    (t.rehash hashcode n).Represents hashcode m := by
  obtain ⟨hs, hp, hsize, -⟩ := HashContainer.rehash_spec hr.wellFormed.toShaped n
  refine hr.perm ⟨hs, ?_⟩ hp
  rw [hsize, hp.length_eq]
  exact hr.wellFormed.size

/-! ## Balance -/

theorem Represents.balanced_insert (hr : t.Represents hashcode m) (hb : t.rep.Balanced) (hk : m k = none) (v : ν) :
    (t.rep.set (adapter hashcode) (t.rep.find (adapter hashcode) k) (some (k, v)) true).1.Balanced :=
  hb.set_insert (e := (k, v)) hr.wellFormed (hr.find_none hk).2

omit [DecidableEq κ] in
theorem balanced_assignAt (hb : t.rep.Balanced) (it : Iterator (κ × ν)) (v : ν) :
    (t.assignAt it v).rep.Balanced := by
  rw [HashTable.assignAt]
  cases it.element with
  | none => exact hb
  | some e =>
    refine hb.of_le ?_ (List.length_modify ..)
    by_cases hlt : it.bucket < t.rep.buckets.length
    · obtain ⟨rest, hflat, hmodify⟩ := Buckets.exists_flatten_modify hlt
      rw [HashContainer.elements, (hmodify _).length_eq, List.length_append, List.length_set, ← List.length_append]
      exact hflat.length_eq.ge
    · exact (congrArg (fun bs => bs.flatten.length) (List.modify_eq_self (Nat.le_of_not_lt hlt))).le

theorem Represents.balanced_findInsert (hr : t.Represents hashcode m) (hb : t.rep.Balanced) (k : κ) (v : ν) :
    (HashTable.findInsert hashcode t (k, v)).1.rep.Balanced := by
  cases hk : m k with
  | some w =>
    simp only [HashTable.findInsert, (hr.live_find hk).element]
    exact hb
  | none =>
    simp only [HashTable.findInsert, (hr.find_none hk).1]
    exact hr.balanced_insert hb hk v

theorem Represents.balanced_set (hr : t.Represents hashcode m) (hb : t.rep.Balanced) (k : κ) (v : ν) :
    (t.set hashcode k v).1.rep.Balanced := by
  cases hk : m k with
  | some w =>
    simp only [HashTable.set, (hr.live_find hk).element]
    exact balanced_assignAt hb _ v
  | none =>
    simp only [HashTable.set, (hr.find_none hk).1]
    exact hr.balanced_insert hb hk v

theorem Represents.balanced_eraseKey (hr : t.Represents hashcode m) (hb : t.rep.Balanced) (k : κ) :
    (t.eraseKey hashcode k).1.rep.Balanced := by
  cases hk : m k with
  | some w =>
    obtain ⟨-, -, hp, hcount, -⟩ := HashContainer.unlink_spec hr.wellFormed (hr.live_find hk)
    have hbalanced : (t.rep.unlink (t.rep.find (adapter hashcode) k)).1.Balanced := by
      refine hb.of_le ?_ hcount
      rw [hp.length_eq]
      exact Nat.le_succ _
    exact hbalanced
  | none =>
    simp only [HashTable.eraseKey, HashContainer.eraseKey, HashContainer.set, HashContainer.unlink, (hr.find_none hk).1]
    exact hb

theorem Represents.balanced_findInsert_all : ∀ (l : List (κ × ν)) {t : HashTable κ ν} {m : κ → Option ν},
    t.Represents hashcode m → t.rep.Balanced →
    (l.foldl (fun t v => (HashTable.findInsert hashcode t v).1) t).rep.Balanced
  | [], _, _, _, hb => hb
  | (k, v) :: l, _, _, hr, hb =>
    balanced_findInsert_all l (hr.findInsert k v).1 (hr.balanced_findInsert hb k v)

/-! ## Loops over a table -/

/-- The list holds every pair of the map once. -/
def Lists (l : List (κ × ν)) (m : κ → Option ν) : Prop :=
  (l.map Prod.fst).Nodup ∧ ∀ k v, (k, v) ∈ l ↔ m k = some v

theorem Represents.lists (hr : t.Represents hashcode m) : Lists t.rep.elements m := by
  refine ⟨hr.wellFormed.distinct, fun k v => ?_⟩
  rw [← hr.value]
  exact (Keyed.Distinct.value_eq_some_iff hr.wellFormed.distinct).symm

/-- Tables of one map have equally many pairs. -/
theorem Represents.length_eq {t' : HashTable κ ν} (hr : t.Represents hashcode m) (hr' : t'.Represents hashcode m) :
    t'.rep.elements.length = t.rep.elements.length := by
  refine ((List.perm_ext_iff_of_nodup hr'.wellFormed.distinct.of_map hr.wellFormed.distinct.of_map).2 ?_).length_eq
  rintro ⟨k, v⟩
  rw [hr'.lists.2, hr.lists.2]

theorem Represents.balanced_of_none (hr : t.Represents hashcode fun _ => none) : t.rep.Balanced := by
  apply HashContainer.balanced_of_nil
  rw [List.eq_nil_iff_forall_not_mem]
  rintro ⟨k, v⟩ hmem
  exact absurd ((hr.lists.2 k v).1 hmem) (by simp)

/-- A loop over the table visits every pair once. -/
theorem Represents.pairs (hr : t.Represents hashcode m) :
    ∃ t' l, t.pairs = some (t', l) ∧ t'.Represents hashcode m ∧ t'.defaultValue = t.defaultValue ∧
      t'.rep.bucketCount = t.rep.bucketCount ∧ Lists l m := by
  obtain ⟨hw, hbuckets, hstands, hahead, -⟩ := HashContainer.begin_spec hr.wellFormed
  have hfuel : (t.rep.begin.1.ahead t.rep.begin.2).length < t.rep.elements.length + 1 := by
    rw [hahead]
    exact Nat.lt_succ_self _
  have helements : t.rep.begin.1.elements = t.rep.elements := congrArg List.flatten hbuckets
  refine ⟨{ t with rep := t.rep.begin.1 }, t.rep.elements, ?_, hr.perm hw (.of_eq helements), rfl,
    congrArg List.length hbuckets, hr.lists⟩
  rw [HashTable.pairs]
  simp only [HashContainer.visit_spec _ hstands hfuel, hahead]
  rfl

omit [DecidableEq κ] in
theorem clearLoop_spec : ∀ (fuel : Nat) {h : HashContainer (κ × ν)} {it : Iterator (κ × ν)},
    h.WellFormed (adapter hashcode) → h.Stands it → h.before it = [] → (h.ahead it).length < fuel →
    ∃ h', clearLoop hashcode fuel h it = some h' ∧ h'.WellFormed (adapter hashcode) ∧ h'.elements = [] ∧
      h'.bucketCount = h.bucketCount
  | 0, _, _, _, _, _, hfuel => absurd hfuel (Nat.not_lt_zero _)
  | fuel + 1, h, it, hw, hs, hb, hfuel => by
    rw [clearLoop]
    rcases hs with ⟨e, hl⟩ | rfl
    · obtain ⟨-, hw', -, hcount, hs', hahead, hbefore⟩ := HashContainer.unlink_spec hw hl
      rw [hahead, List.length_cons] at hfuel
      simp only [hl.element, HashContainer.erase_eq]
      obtain ⟨h', hloop, h1, h2, h3⟩ := clearLoop_spec fuel hw' hs' (hbefore.trans hb)
        (Nat.lt_of_succ_lt_succ hfuel)
      exact ⟨h', hloop, h1, h2, h3.trans hcount⟩
    · refine ⟨h, rfl, hw, ?_, rfl⟩
      rw [← HashContainer.before_append_ahead h ⟨none, 0, h.bucketCount⟩, hb, HashContainer.ahead_end]
      rfl

/-- `clear` ends with no pair left. -/
theorem Represents.clear (hr : t.Represents hashcode m) :
    ∃ t', t.clear hashcode = some t' ∧ t'.Represents hashcode (fun _ => none) ∧
      t'.defaultValue = t.defaultValue ∧ t'.rep.bucketCount = t.rep.bucketCount := by
  obtain ⟨hw, hbuckets, hstands, hahead, hbefore⟩ := HashContainer.begin_spec hr.wellFormed
  have hfuel : (t.rep.begin.1.ahead t.rep.begin.2).length < t.rep.elements.length + 1 := by
    rw [hahead]
    exact Nat.lt_succ_self _
  obtain ⟨h', hloop, hw', hempty, hcount⟩ := clearLoop_spec _ hw hstands hbefore hfuel
  refine ⟨{ t with rep := h' }, ?_, ⟨hw', by rw [hempty]; rfl⟩, rfl,
    hcount.trans (congrArg List.length hbuckets)⟩
  rw [HashTable.clear]
  simp only [hloop]
  rfl

/-- What the copying loop keeps: the copy holds what `i` has passed, and `j` points into bucket `b`. -/
structure Cloning (hashcode : κ → BitVec 64) (o h : HashContainer (κ × ν)) (j : Iterator (κ × ν)) (b : Nat)
    (i : Iterator (κ × ν)) : Prop where
  wellFormed : h.WellFormed (adapter hashcode)
  count : h.bucketCount = o.bucketCount
  elements : h.elements.Perm (o.before i)
  place : b = 2 ^ 64 - 1 ∨ j.bucket = b ∧ j.pprev ≤ (h.chain b).length

theorem cloneLoop_spec {o : HashContainer (κ × ν)} (ho : o.WellFormed (adapter hashcode)) :
    ∀ (fuel : Nat) {h : HashContainer (κ × ν)} {j : Iterator (κ × ν)} {b : Nat} {i : Iterator (κ × ν)},
    Cloning hashcode o h j b i → o.Stands i → (o.ahead i).length < fuel →
    ∃ h', cloneLoop o fuel h j b i = some h' ∧ h'.WellFormed (adapter hashcode) ∧ h'.elements.Perm o.elements ∧
      h'.bucketCount = o.bucketCount
  | 0, _, _, _, _, _, _, hfuel => absurd hfuel (Nat.not_lt_zero _)
  | fuel + 1, h, j, b, i, hc, hs, hfuel => by
    rw [cloneLoop]
    have hall := HashContainer.before_append_ahead o i
    rcases hs with ⟨e, hl⟩ | rfl
    · obtain ⟨hstands, hahead, hbefore⟩ := HashContainer.advance_spec hl
      rw [hahead] at hall
      rw [hahead, List.length_cons] at hfuel
      simp only [hl.element]
      have hhome : i.bucket = h.bucket (adapter hashcode) e.1 := by
        rw [HashContainer.bucket, hc.count]
        exact (ho.placed i.bucket e (List.mem_of_getElem? hl.link)).symm
      have hnew : Keyed.lookup Prod.fst h.elements e.1 = none := by
        have hd : Keyed.Distinct Prod.fst (e :: (o.before i ++ o.ahead (o.advance i))) :=
          (show Keyed.Distinct Prod.fst o.elements from ho.distinct).perm (hall ▸ List.perm_middle)
        refine (Keyed.Distinct.lookup_perm hc.wellFormed.distinct hc.elements _).trans ?_
        exact Keyed.lookup_eq_none_iff.2 fun x hx =>
          Keyed.lookup_eq_none_iff.1 (Keyed.distinct_cons.1 hd).1 x (List.mem_append_left _ hx)
      -- `j` is in the bucket of `i`, at its head or where the loop left it
      have hinsert : ∀ j' : Iterator (κ × ν), j'.bucket = i.bucket → j'.pprev ≤ (h.chain i.bucket).length →
          ∃ h', cloneLoop o fuel (h.insertAt j' e).1 (h.insertAt j' e).2 i.bucket (o.advance i) = some h' ∧
            h'.WellFormed (adapter hashcode) ∧ h'.elements.Perm o.elements ∧ h'.bucketCount = o.bucketCount := by
        intro j' hb hp
        obtain ⟨hw', hperm⟩ := HashContainer.insertAt_spec hc.wellFormed (hb.trans hhome) (hb ▸ hp) hnew
        refine cloneLoop_spec ho fuel ⟨hw', (List.length_modify ..).trans hc.count, ?_, .inr ⟨hb, ?_⟩⟩ hstands
          (Nat.lt_of_succ_lt_succ hfuel)
        · rw [hbefore]
          exact hperm.trans ((hc.elements.cons e).trans (List.perm_append_singleton e _).symm)
        · show j'.pprev + 1 ≤ (Buckets.bucket (h.buckets.modify j'.bucket (·.insertIdx j'.pprev e)) i.bucket).length
          have hlt : i.bucket < h.bucketCount := hc.count ▸ hl.bucket_lt
          rw [hb, Buckets.bucket_modify hlt, if_pos rfl]
          exact (Nat.succ_le_succ hp).trans (List.length_insertIdx_of_le_length hp e).ge
      split
      · exact hinsert _ rfl (Nat.zero_le _)
      · rename_i hsame
        rw [not_not] at hsame
        subst hsame
        have hlt := hl.bucket_lt
        have hmax := ho.count.lt
        obtain ⟨hb, hp⟩ := hc.place.resolve_left (by omega)
        exact hinsert j hb hp
    · rw [HashContainer.ahead_end, List.append_nil] at hall
      exact ⟨h, rfl, hc.wellFormed, hall ▸ hc.elements, hc.count⟩

/-- The copy constructor. -/
theorem Represents.copyOf (hr : t.Represents hashcode m) :
    ∃ t' x', t.copyOf = some (t', x') ∧ t'.Represents hashcode m ∧ x'.Represents hashcode m ∧
      t'.defaultValue = t.defaultValue ∧ x'.defaultValue = t.defaultValue ∧
      t'.rep.bucketCount = t.rep.bucketCount ∧ x'.rep.bucketCount = t.rep.bucketCount := by
  obtain ⟨hw, hbuckets, hstands, hahead, hbefore⟩ := HashContainer.begin_spec hr.wellFormed
  have hcount : t.rep.begin.1.bucketCount = t.rep.bucketCount := congrArg List.length hbuckets
  have helements : t.rep.begin.1.elements = t.rep.elements := congrArg List.flatten hbuckets
  have hfuel : (t.rep.begin.1.ahead t.rep.begin.2).length < t.rep.elements.length + 1 := by
    rw [hahead]
    exact Nat.lt_succ_self _
  have hround := HashContainer.roundUp_self hr.wellFormed.count
  have hempty : Cloning hashcode t.rep.begin.1 (HashContainer.withBuckets (BitVec.ofNat 64 t.rep.bucketCount))
      ⟨none, 0, 2 ^ 64 - 1⟩ (2 ^ 64 - 1) t.rep.begin.2 := by
    refine ⟨HashContainer.wellFormed_ofBuckets (HashContainer.roundUp_spec _).1, ?_, ?_, .inl rfl⟩
    · rw [hcount]
      exact List.length_replicate.trans hround
    · rw [hbefore, HashContainer.withBuckets, HashContainer.elements_ofBuckets]
  obtain ⟨h', hloop, hw', hperm, hcount'⟩ := cloneLoop_spec hw _ hempty hstands hfuel
  rw [helements] at hperm
  refine ⟨⟨h', t.defaultValue⟩, { t with rep := t.rep.begin.1 }, ?_, hr.perm hw' hperm,
    hr.perm hw (.of_eq helements), rfl, rfl, hcount'.trans hcount, hcount⟩
  rw [HashTable.copyOf]
  simp only [hloop]
  rfl

/-- Pairs with distinct keys, none of them in the table, are all added. -/
theorem Represents.findInsert_all : ∀ {l : List (κ × ν)} {t : HashTable κ ν} {m : κ → Option ν},
    t.Represents hashcode m → (∀ e ∈ l, m e.1 = none) → Keyed.Distinct Prod.fst l →
    let r := l.foldl (fun t v => (HashTable.findInsert hashcode t v).1) t
    r.Represents hashcode (fun k => (Keyed.value l k).or (m k)) ∧ r.defaultValue = t.defaultValue
  | [], t, m, hr, _, _ => ⟨by simpa [Keyed.value, Keyed.lookup] using hr, rfl⟩
  | (k, v) :: l, t, m, hr, hnew, hd => by
    obtain ⟨hrep, -, hdefault⟩ := hr.findInsert k v
    have hk : m k = none := hnew (k, v) List.mem_cons_self
    rw [hk, Option.getD_none] at hrep
    have hkl := (Keyed.distinct_cons.1 hd).1
    have hnew' : ∀ e ∈ l, Function.update m k (some v) e.1 = none := by
      intro e he
      rw [Function.update_of_ne (Keyed.lookup_eq_none_iff.1 hkl e he)]
      exact hnew e (List.mem_cons_of_mem _ he)
    obtain ⟨hall, hdefault'⟩ := Represents.findInsert_all hrep hnew' (Keyed.distinct_cons.1 hd).2
    rw [List.foldl_cons]
    refine ⟨?_, hdefault'.trans hdefault⟩
    convert hall using 1
    funext k'
    rw [Keyed.value_cons]
    by_cases hk' : k' = k
    · subst hk'
      rw [Function.update_self, Function.update_self, Keyed.value, hkl]
      rfl
    · rw [Function.update_of_ne hk', Function.update_of_ne hk']

/-- `operator=` makes the table hold what the other one holds. -/
theorem Represents.assignFrom {x : HashTable κ ν} {n : κ → Option ν} (hr : t.Represents hashcode m)
    (hx : x.Represents hashcode n) :
    ∃ t' x', t.assignFrom hashcode x = some (t', x') ∧ t'.Represents hashcode n ∧ x'.Represents hashcode n ∧
      t'.defaultValue = x.defaultValue ∧ x'.defaultValue = x.defaultValue ∧ t'.rep.Balanced ∧
      x'.rep.bucketCount = x.rep.bucketCount := by
  obtain ⟨t1, hclear, hr1, -, -⟩ := hr.clear
  obtain ⟨x', l, hpairs, hx', hd, hcount, hl⟩ := hx.pairs
  let t2 := if t1.rep.bucketCount < x.rep.bucketCount then t1.rehash hashcode (BitVec.ofNat 64 x.rep.bucketCount)
    else t1
  have hr2 : t2.Represents hashcode fun _ => none := by
    by_cases hlt : t1.rep.bucketCount < x.rep.bucketCount
    · simp only [t2, if_pos hlt]
      exact hr1.rehash _
    · simp only [t2, if_neg hlt]
      exact hr1
  obtain ⟨hall, -⟩ := Represents.findInsert_all hr2 (fun _ _ => rfl) hl.1
  refine ⟨{ l.foldl (fun t v => (HashTable.findInsert hashcode t v).1) t2 with defaultValue := x'.defaultValue }, x',
    ?_, ⟨hall.wellFormed, hall.value.trans ?_⟩, hx', hd, hd,
    Represents.balanced_findInsert_all l hr2 hr2.balanced_of_none, hcount⟩
  · rw [HashTable.assignFrom]
    simp only [hclear, Option.bind_eq_bind, Option.bind_some, hpairs]
    rfl
  · funext k
    rw [Option.or_none]
    ext v
    rw [Keyed.Distinct.value_eq_some_iff hl.1, hl.2]

/-! ## Runs of calls -/

/-- A call on a table, with a second table at hand. -/
inductive Call (κ ν : Type)
  | find (key : κ)
  | findPrefer (key : κ)
  | get (key : κ)
  /-- `t[key]`, read. -/
  | index (key : κ)
  /-- `t[key] = v`. -/
  | indexAssign (key : κ) (v : ν)
  | set (key : κ) (v : ν)
  | erase (key : κ)
  | clear
  | rehash (n : BitVec 64)
  | size
  /-- A loop over the table. -/
  | pairs
  | swap
  /-- `operator=`, from the second table. -/
  | assign
  /-- A copy of the second table in place of the table. -/
  | copy

inductive Answer (κ ν : Type)
  | none
  | found (v : Option ν)
  | value (v : ν)
  | flag (b : Bool)
  | count (n : Nat)
  | size (n : BitVec 64)
  | pairs (l : List (κ × ν))
deriving DecidableEq, Repr

section Run

variable (hashcode)

def call (s : HashTable κ ν × HashTable κ ν) :
    Call κ ν → Option ((HashTable κ ν × HashTable κ ν) × Answer κ ν)
  | .find key => some (s, .found (s.1.find hashcode key))
  | .findPrefer key =>
    let (t, v) := s.1.findPrefer hashcode key
    some ((t, s.2), .found v)
  | .get key => some (s, .value (s.1.get hashcode key))
  | .index key =>
    let (t, it) := s.1.index hashcode key
    some ((t, s.2), .found (it.element.map Prod.snd))
  | .indexAssign key v => some ((s.1.indexAssign hashcode key v, s.2), .none)
  | .set key v =>
    let (t, b) := s.1.set hashcode key v
    some ((t, s.2), .flag b)
  | .erase key =>
    let (t, n) := s.1.eraseKey hashcode key
    some ((t, s.2), .count n)
  | .clear => (s.1.clear hashcode).map fun t => ((t, s.2), .none)
  | .rehash n => some ((s.1.rehash hashcode n, s.2), .none)
  | .size => some (s, .size s.1.rep.size)
  | .pairs => s.1.pairs.map fun (t, l) => ((t, s.2), .pairs l)
  | .swap => some ((s.2, s.1), .none)
  | .assign => (s.1.assignFrom hashcode s.2).map fun (t, x) => ((t, x), .none)
  | .copy => s.2.copyOf.map fun (t, x) => ((t, x), .none)

/-- Calls one after the other, and their answers. -/
def run : HashTable κ ν × HashTable κ ν → List (Call κ ν) →
    Option ((HashTable κ ν × HashTable κ ν) × List (Answer κ ν))
  | s, [] => some (s, [])
  | s, c :: cs => do
    let (s, a) ← call hashcode s c
    let (s, as) ← run s cs
    return (s, a :: as)

end Run

/-- What a table is for: a map, and the value of keys that are not in it. -/
structure Spec (κ ν : Type) where
  map : κ → Option ν
  defaultValue : ν

namespace Spec

variable (s : Spec κ ν × Spec κ ν)

/-- The maps after a call. -/
def next : Call κ ν → Spec κ ν × Spec κ ν
  | .index key => ({ s.1 with map := Function.update s.1.map key (some ((s.1.map key).getD s.1.defaultValue)) }, s.2)
  | .indexAssign key v => ({ s.1 with map := Function.update s.1.map key (some v) }, s.2)
  | .set key v => ({ s.1 with map := Function.update s.1.map key (some v) }, s.2)
  | .erase key => ({ s.1 with map := Function.update s.1.map key none }, s.2)
  | .clear => ({ s.1 with map := fun _ => none }, s.2)
  | .swap => (s.2, s.1)
  | .assign => (s.2, s.2)
  | .copy => (s.2, s.2)
  | _ => s

/-- The answers a call may give; a loop lists the pairs in any order. -/
def Allows : Call κ ν → Answer κ ν → Prop
  | .find key, a => a = .found (s.1.map key)
  | .findPrefer key, a => a = .found (s.1.map key)
  | .get key, a => a = .value ((s.1.map key).getD s.1.defaultValue)
  | .index key, a => a = .found (some ((s.1.map key).getD s.1.defaultValue))
  | .set key _, a => a = .flag (s.1.map key).isNone
  | .erase key, a => a = .count (if (s.1.map key).isSome then 1 else 0)
  | .size, a => ∃ l, Lists l s.1.map ∧ a = .size (BitVec.ofNat 64 l.length)
  | .pairs, a => ∃ l, Lists l s.1.map ∧ a = .pairs l
  | _, a => a = .none

/-- The answers of a run. -/
def AllowsAll : Spec κ ν × Spec κ ν → List (Call κ ν) → List (Answer κ ν) → Prop
  | _, [], as => as = []
  | s, c :: cs, as => ∃ a rest, as = a :: rest ∧ Allows s c a ∧ AllowsAll (next s c) cs rest

end Spec

/-- The table holds the map, and its default. -/
def Meets (hashcode : κ → BitVec 64) (t : HashTable κ ν) (s : Spec κ ν) : Prop :=
  t.Represents hashcode s.map ∧ t.defaultValue = s.defaultValue

theorem meets_ofDefault (d : ν) : Meets hashcode (ofDefault d : HashTable κ ν) ⟨fun _ => none, d⟩ :=
  ⟨represents_ofDefault d, rfl⟩

/-- Both tables hold their maps. -/
def MeetsBoth (hashcode : κ → BitVec 64) (s : HashTable κ ν × HashTable κ ν) (a : Spec κ ν × Spec κ ν) :
    Prop :=
  Meets hashcode s.1 a.1 ∧ Meets hashcode s.2 a.2

/-- One call answers as the maps do, and leaves tables that hold the maps after it. -/
theorem call_spec {s : HashTable κ ν × HashTable κ ν} {a : Spec κ ν × Spec κ ν} (hs : MeetsBoth hashcode s a)
    (c : Call κ ν) :
    ∃ s' ans, call hashcode s c = some (s', ans) ∧ Spec.Allows a c ans ∧
    MeetsBoth hashcode s' (Spec.next a c) := by
  obtain ⟨⟨hr, hd⟩, h2⟩ := hs
  cases c with
  | find key => exact ⟨s, _, rfl, congrArg _ (hr.find key), ⟨hr, hd⟩, h2⟩
  | findPrefer key =>
    obtain ⟨hr', hv⟩ := hr.findPrefer key
    exact ⟨_, _, rfl, congrArg _ hv, ⟨hr', hd⟩, h2⟩
  | get key =>
    refine ⟨s, _, rfl, ?_, ⟨hr, hd⟩, h2⟩
    show Answer.value ((s.1.find hashcode key).getD s.1.defaultValue) = _
    rw [hr.find key, hd]
  | index key =>
    obtain ⟨hr', hl, hd'⟩ := hr.findInsert key s.1.defaultValue
    refine ⟨((s.1.index hashcode key).1, s.2), .found ((s.1.index hashcode key).2.element.map Prod.snd), rfl, ?_,
      ⟨?_, hd'.trans hd⟩, h2⟩
    · show Answer.found ((HashTable.findInsert hashcode s.1 (key, s.1.defaultValue)).2.element.map Prod.snd) = _
      rw [hl.element, hd]
      rfl
    · show Represents hashcode _ (Function.update a.1.map key (some ((a.1.map key).getD a.1.defaultValue)))
      rw [← hd]
      exact hr'
  | indexAssign key v =>
    obtain ⟨hr', hd'⟩ := hr.indexAssign key v
    exact ⟨_, _, rfl, rfl, ⟨hr', hd'.trans hd⟩, h2⟩
  | set key v =>
    obtain ⟨hr', hd', hb⟩ := hr.set key v
    exact ⟨_, _, rfl, congrArg _ hb, ⟨hr', hd'.trans hd⟩, h2⟩
  | erase key =>
    obtain ⟨hr', hd', hn⟩ := hr.eraseKey key
    exact ⟨_, _, rfl, congrArg _ hn, ⟨hr', hd'.trans hd⟩, h2⟩
  | clear =>
    obtain ⟨t', hclear, hr', hd', -⟩ := hr.clear
    exact ⟨(t', s.2), .none, by rw [call, hclear]; rfl, rfl, ⟨hr', hd'.trans hd⟩, h2⟩
  | rehash n => exact ⟨_, _, rfl, rfl, ⟨hr.rehash n, hd⟩, h2⟩
  | size => exact ⟨s, _, rfl, ⟨_, hr.lists, congrArg _ hr.wellFormed.size⟩, ⟨hr, hd⟩, h2⟩
  | pairs =>
    obtain ⟨t', l, hpairs, hr', hd', -, hl⟩ := hr.pairs
    exact ⟨(t', s.2), .pairs l, by rw [call, hpairs]; rfl, ⟨l, hl, rfl⟩, ⟨hr', hd'.trans hd⟩, h2⟩
  | swap => exact ⟨_, _, rfl, rfl, h2, ⟨hr, hd⟩⟩
  | assign =>
    obtain ⟨t', x', hassign, ht, hx, hdt, hdx, -⟩ := hr.assignFrom h2.1
    exact ⟨(t', x'), .none, by rw [call, hassign]; rfl, rfl, ⟨ht, hdt.trans h2.2⟩, ⟨hx, hdx.trans h2.2⟩⟩
  | copy =>
    obtain ⟨t', x', hcopy, ht, hx, hdt, hdx, -⟩ := h2.1.copyOf
    exact ⟨(t', x'), .none, by rw [call, hcopy]; rfl, rfl, ⟨ht, hdt.trans h2.2⟩, ⟨hx, hdx.trans h2.2⟩⟩

theorem run_spec : ∀ (cs : List (Call κ ν)) {s : HashTable κ ν × HashTable κ ν} {a : Spec κ ν × Spec κ ν},
    MeetsBoth hashcode s a → ∃ s' as, run hashcode s cs = some (s', as) ∧ Spec.AllowsAll a cs as ∧
      MeetsBoth hashcode s' (cs.foldl Spec.next a)
  | [], s, a, hs => ⟨s, [], rfl, rfl, hs⟩
  | c :: cs, s, a, hs => by
    obtain ⟨s1, ans, hcall, hallows, hs1⟩ := call_spec hs c
    obtain ⟨s2, as, hrun, hall, hs2⟩ := run_spec cs hs1
    refine ⟨s2, ans :: as, ?_, ⟨ans, as, rfl, hallows, hall⟩, hs2⟩
    rw [run, hcall]
    simp only [Option.bind_eq_bind, Option.bind_some, hrun]
    rfl

/-- The calls that leave the number of buckets to the table. -/
def Call.Automatic : Call κ ν → Prop
  | .rehash _ => False
  | _ => True

theorem call_balanced {s : HashTable κ ν × HashTable κ ν} {a : Spec κ ν × Spec κ ν}
    (hs : MeetsBoth hashcode s a) (h1 : s.1.rep.Balanced) (h2 : s.2.rep.Balanced) {c : Call κ ν} (hc : c.Automatic)
    {s' : HashTable κ ν × HashTable κ ν} {ans : Answer κ ν} (hcall : call hashcode s c = some (s', ans)) :
    s'.1.rep.Balanced ∧ s'.2.rep.Balanced := by
  obtain ⟨⟨hr, -⟩, hx, -⟩ := hs
  cases c with
  | find key =>
    cases hcall
    exact ⟨h1, h2⟩
  | findPrefer key =>
    cases hcall
    obtain ⟨-, hp, -, hcount⟩ := HashContainer.findPrefer_spec hr.wellFormed key
    exact ⟨h1.of_le hp.length_eq.le hcount, h2⟩
  | get key =>
    cases hcall
    exact ⟨h1, h2⟩
  | index key =>
    cases hcall
    exact ⟨hr.balanced_findInsert h1 key _, h2⟩
  | indexAssign key v =>
    cases hcall
    exact ⟨balanced_assignAt (hr.balanced_findInsert h1 key _) _ v, h2⟩
  | set key v =>
    cases hcall
    exact ⟨hr.balanced_set h1 key v, h2⟩
  | erase key =>
    cases hcall
    exact ⟨hr.balanced_eraseKey h1 key, h2⟩
  | clear =>
    obtain ⟨t', hclear, hr', -⟩ := hr.clear
    rw [call, hclear] at hcall
    cases hcall
    exact ⟨hr'.balanced_of_none, h2⟩
  | rehash n => exact hc.elim
  | size =>
    cases hcall
    exact ⟨h1, h2⟩
  | pairs =>
    obtain ⟨t', l, hpairs, hr', -, hcount, -⟩ := hr.pairs
    rw [call, hpairs] at hcall
    cases hcall
    exact ⟨h1.of_le (hr.length_eq hr').le hcount, h2⟩
  | swap =>
    cases hcall
    exact ⟨h2, h1⟩
  | assign =>
    obtain ⟨t', x', hassign, -, hx', -, -, hbalanced, hcount⟩ := hr.assignFrom hx
    rw [call, hassign] at hcall
    cases hcall
    exact ⟨hbalanced, h2.of_le (hx.length_eq hx').le hcount⟩
  | copy =>
    obtain ⟨t', x', hcopy, ht, hx', -, -, hcount, hcount'⟩ := hx.copyOf
    rw [call, hcopy] at hcall
    cases hcall
    exact ⟨h2.of_le (hx.length_eq ht).le hcount, h2.of_le (hx.length_eq hx').le hcount'⟩

theorem run_balanced_of :
    ∀ {cs : List (Call κ ν)} {s s' : HashTable κ ν × HashTable κ ν} {a : Spec κ ν × Spec κ ν}
    {as : List (Answer κ ν)}, MeetsBoth hashcode s a → s.1.rep.Balanced → s.2.rep.Balanced →
    (∀ c ∈ cs, c.Automatic) → run hashcode s cs = some (s', as) → s'.1.rep.Balanced ∧ s'.2.rep.Balanced
  | [], s, s', a, as, _, h1, h2, _, hrun => by
    cases hrun
    exact ⟨h1, h2⟩
  | c :: cs, s, s', a, as, hs, h1, h2, hc, hrun => by
    obtain ⟨s1, ans, hcall, -, hs1⟩ := call_spec hs c
    obtain ⟨hb1, hb2⟩ := call_balanced hs h1 h2 (hc c List.mem_cons_self) hcall
    obtain ⟨s2, rest, hrest, -⟩ := run_spec cs hs1
    rw [run, hcall] at hrun
    simp only [Option.bind_eq_bind, Option.bind_some, hrest] at hrun
    cases hrun
    exact run_balanced_of hs1 hb1 hb2 (fun c' hc' => hc c' (List.mem_cons_of_mem _ hc')) hrest

/-- A run without `rehash` leaves two pairs to a bucket at most, unless there are as many buckets as
there can be. -/
theorem run_balanced (d d' : ν) {cs : List (Call κ ν)} (hcs : ∀ c ∈ cs, c.Automatic)
    {s : HashTable κ ν × HashTable κ ν} {as : List (Answer κ ν)}
    (hrun : run hashcode (ofDefault d, ofDefault d') cs = some (s, as)) : s.1.rep.Balanced ∧ s.2.rep.Balanced :=
  run_balanced_of (a := (⟨fun _ => none, d⟩, ⟨fun _ => none, d'⟩)) ⟨meets_ofDefault d, meets_ofDefault d'⟩
    (HashContainer.balanced_of_nil (HashContainer.elements_ofBuckets _))
    (HashContainer.balanced_of_nil (HashContainer.elements_ofBuckets _)) hcs hrun

/-- The maps after every key of `ks` was set to itself. -/
theorem map_foldl_set : ∀ (ks : List ℕ) {a : Spec ℕ ℕ × Spec ℕ ℕ} {k : ℕ}, k ∈ ks ∨
    a.1.map k = some k → ((ks.map fun k => Call.set k k).foldl Spec.next a).1.map k = some k
  | [], _, _, h => h.resolve_left List.not_mem_nil
  | j :: ks, a, k, h => by
    refine map_foldl_set ks ?_
    by_cases hk : k = j
    · exact .inr (by rw [hk]; exact Function.update_self ..)
    · rw [List.mem_cons, or_iff_right hk] at h
      exact h.imp_right fun h => (Function.update_of_ne hk ..).trans h

/-- The last of 127 different keys is one too many for the 63 buckets of a new table. -/
theorem run_balanced_grown : ∃ s as, run (BitVec.ofNat 64) (ofDefault 0, ofDefault 7)
    ((List.range 127).map fun k => .set k k) = some (s, as) ∧
    s.1.rep.Balanced ∧ HashContainer.initialBucketCount < s.1.rep.bucketCount := by
  have hnew :
    MeetsBoth (BitVec.ofNat 64) (ofDefault 0, ofDefault 7) (⟨fun _ : ℕ => none, 0⟩, ⟨fun _ => none, 7⟩) :=
    ⟨meets_ofDefault 0, meets_ofDefault 7⟩
  obtain ⟨s, as, hrun, -, ⟨hr, -⟩, -⟩ := run_spec ((List.range 127).map fun k => .set k k) hnew
  have hbalanced := (run_balanced 0 7 (by simp [Call.Automatic]) hrun).1
  have hsub : (List.range 127).map (fun k => (k, k)) ⊆ s.1.rep.elements := fun p hp => by
    obtain ⟨k, hk, rfl⟩ := List.mem_map.1 hp
    exact (hr.lists.2 k k).2 (map_foldl_set _ (.inl hk))
  have hnodup : ((List.range 127).map fun k => (k, k)).Nodup :=
    List.nodup_range.map fun _ _ h => congrArg Prod.fst h
  have hlen := hnodup.length_le_of_subset hsub
  rw [List.length_map, List.length_range] at hlen
  refine ⟨s, as, hrun, hbalanced, ?_⟩
  rcases hbalanced with hle | hmax
  · rw [HashContainer.initialBucketCount]
    omega
  · rw [hmax]
    decide

/-- Any run of calls on two new tables ends, whatever the hash codes are, and answers as two maps do:
`find` gives the value of a key, a loop lists every pair once, and `size` counts the pairs. -/
theorem run_answers (hashcode : κ → BitVec 64) (d d' : ν) (cs : List (Call κ ν)) :
    ∃ s' as, run hashcode (ofDefault d, ofDefault d') cs = some (s', as) ∧
      Spec.AllowsAll (⟨fun _ => none, d⟩, ⟨fun _ => none, d'⟩) cs as := by
  have hnew : MeetsBoth hashcode (ofDefault d, ofDefault d') (⟨fun _ => none, d⟩, ⟨fun _ => none, d'⟩) :=
    ⟨meets_ofDefault d, meets_ofDefault d'⟩
  obtain ⟨s', as, hrun, hall, -⟩ := run_spec cs hnew
  exact ⟨s', as, hrun, hall⟩

example : (run (BitVec.ofNat 64) (ofDefault 0, ofDefault 7)
    [.indexAssign 1 10, .indexAssign 64 20, .swap, .copy, .erase 1, .pairs]).map Prod.snd =
    some [.none, .none, .none, .none, .count 1, .pairs [(64, 20)]] := by decide

end HashTable

end Embark
