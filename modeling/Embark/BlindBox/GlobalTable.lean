/-
`GlobalSignatureTable`: every filter registers its table of signatures under the queue lock, in an
array of a fixed size and a counter, by loads and stores that interleave with those of the others.
Whatever the interleaving, with at most sixteen calls what a reader finds below the counter are tables
registered in the order in which their threads queued up. Nothing checks the bound: the seventeenth
call stores behind the array.
-/
import Embark.BlindBox.McsLock
import Mathlib.Data.BitVec
import Mathlib.Data.Set.List

namespace Embark

namespace BlindBox

open McsLock

/-- `MAX_THREAD_COUNT`. -/
def maxThreadCount : Nat := 16

/-- `allTables`, unset where nothing has been stored, and `tablesCount`. -/
structure GlobalSignatureTable (τ : Type) where
  allTables : List (Option τ)
  tablesCount : BitVec 32
deriving Repr, DecidableEq

namespace GlobalSignatureTable

/-- `setIsMaster`. -/
def setIsMaster {τ : Type} : GlobalSignatureTable τ := ⟨List.replicate maxThreadCount none, 0⟩

/-- The operations of `appendThreadLocalSignatureTable` between the lock and the release: a load and a
store for `allTables[tablesCount] = t`, a load and a store for `tablesCount++`. -/
inductive Append (τ : Type)
  | loadIndex (t : τ)
  | store (t : τ) (index : BitVec 32)
  | loadCount
  | storeCount (count : BitVec 32)
deriving Repr, DecidableEq

/-- `appendThreadLocalSignatureTable` under the lock. A store outside the array is undefined behaviour,
here `none`: nothing is said of what comes after it. -/
def append {τ : Type} : Append τ → GlobalSignatureTable τ →
    Option (GlobalSignatureTable τ × Option (Append τ))
  | .loadIndex t, g => some (g, some (.store t g.tablesCount))
  | .store t index, g =>
    if index.toNat < g.allTables.length then
      some ({ g with allTables := g.allTables.set index.toNat (some t) }, some .loadCount)
    else none
  | .loadCount, g => some (g, some (.storeCount g.tablesCount))
  | .storeCount count, g => some ({ g with tablesCount := count + 1 }, none)

variable {τ : Type}

/-- The table with `ts` registered. -/
def registered (ts : List τ) : GlobalSignatureTable τ :=
  ⟨ts.map some ++ List.replicate (maxThreadCount - ts.length) none, BitVec.ofNat 32 ts.length⟩

/-- The table with `ts` registered and `t` stored behind them, before it is counted. -/
def stored (ts : List τ) (t : τ) : GlobalSignatureTable τ :=
  { registered (ts ++ [t]) with tablesCount := BitVec.ofNat 32 ts.length }

theorem length_allTables {ts : List τ} (h : ts.length ≤ maxThreadCount) :
    (registered ts).allTables.length = maxThreadCount := by
  simp only [registered, List.length_append, List.length_map, List.length_replicate]
  omega

theorem toNat_tablesCount {ts : List τ} (h : ts.length ≤ maxThreadCount) :
    (registered ts).tablesCount.toNat = ts.length := by
  have hmax : maxThreadCount = 16 := rfl
  rw [registered, BitVec.toNat_ofNat, Nat.mod_eq_of_lt (by omega)]

theorem set_allTables {ts : List τ} (t : τ) (h : ts.length < maxThreadCount) :
    { registered ts with allTables := (registered ts).allTables.set ts.length (some t) } = stored ts t := by
  have hsucc : maxThreadCount - ts.length = maxThreadCount - (ts.length + 1) + 1 := by omega
  have htables : (registered ts).allTables.set ts.length (some t) = (registered (ts ++ [t])).allTables := by
    simp only [registered]
    rw [List.set_append_right _ _ (by simp), List.length_map, Nat.sub_self, hsucc, List.replicate_succ,
      List.set_cons_zero]
    simp
  rw [htables]
  rfl

/-- What a reader finds in the table while it is between two appends or in one. -/
theorem getElem?_allTables {ts : List τ} {k : Nat} (hk : k < ts.length) :
    (registered ts).allTables[k]? = some ts[k]? := by
  have hlen : k < (ts.map some).length := by rwa [List.length_map]
  rw [registered, List.getElem?_append_left hlen, List.getElem?_map, List.getElem?_eq_getElem hk]
  rfl

/-- Where the operations of an append lead. -/
theorem append_works {ts : List τ} {t : τ} {k : Append τ} {g : GlobalSignatureTable τ}
    (h : ts.length ≤ maxThreadCount) (hw : Works append (.loadIndex t) (registered ts) k g) :
    (g = registered ts ∧ (k = .loadIndex t ∨ k = .store t (registered ts).tablesCount)) ∨
    ts.length < maxThreadCount ∧ g = stored ts t ∧
    (k = .loadCount ∨ k = .storeCount (BitVec.ofNat 32 ts.length)) := by
  induction hw with
  | enter => exact .inl ⟨rfl, .inl rfl⟩
  | work _ hb ih =>
    rcases ih with ⟨rfl, rfl | rfl⟩ | ⟨hlt, rfl, rfl | rfl⟩
    · cases hb
      exact .inl ⟨rfl, .inr rfl⟩
    · rw [append, toNat_tablesCount h, length_allTables h] at hb
      split at hb <;> cases hb
      exact .inr ⟨‹_›, set_allTables t ‹_›, .inl rfl⟩
    · cases hb
      exact .inr ⟨hlt, rfl, .inr rfl⟩
    · cases hb

/-- Appends one after the other. -/
theorem append_serial {calls : List (Append τ)} {g : GlobalSignatureTable τ}
    (hs : Serial append setIsMaster calls g) :
    ∀ {ts : List τ}, calls = ts.map .loadIndex → g = registered ts ∧ ts.length ≤ maxThreadCount := by
  induction hs with
  | nil =>
    intro ts hts
    obtain rfl := List.map_eq_nil_iff.1 hts.symm
    exact ⟨rfl, Nat.zero_le _⟩
  | snoc _ hw hb ih =>
    intro ts hts
    obtain ⟨ts', ts'', rfl, rfl, hlast⟩ := List.map_eq_append_iff.1 hts.symm
    obtain ⟨t, rfl⟩ : ∃ t, ts'' = [t] := List.length_eq_one_iff.1 (by simpa using congrArg List.length hlast)
    obtain rfl : Append.loadIndex t = _ := by simpa using hlast
    obtain ⟨rfl, hle⟩ := ih rfl
    rcases append_works hle hw with ⟨rfl, rfl | rfl⟩ | ⟨hlt, rfl, rfl | rfl⟩
    · cases hb
    · rw [append] at hb
      split at hb <;> cases hb
    · cases hb
    · cases hb
      refine ⟨?_, by rwa [List.length_append]⟩
      simp [stored, registered, BitVec.ofNat_add]

theorem exists_tables {ts : List τ} {l : List (Append τ)} (h : ∀ a ∈ l, a ∈ ts.map Append.loadIndex) :
    ∃ ls : List τ, l = ls.map .loadIndex := by
  have hrange : l ∈ Set.range (List.map (Append.loadIndex (τ := τ))) := by
    rw [Set.range_list_map]
    exact fun a ha => (List.mem_map.1 (h a ha)).imp fun t ht => ht.2
  obtain ⟨ls, hls⟩ := hrange
  exact ⟨ls, hls.symm⟩

/-- The counter and the array of a table with `ts` registered, or with one more stored behind them. -/
theorem readable {ts : List τ} (hle : ts.length ≤ maxThreadCount) {g : GlobalSignatureTable τ}
    (hg : g = registered ts ∨ ∃ t, g = stored ts t) :
    g.tablesCount.toNat = ts.length ∧ ∀ k < ts.length, g.allTables[k]? = some ts[k]? := by
  rcases hg with rfl | ⟨t, rfl⟩
  · exact ⟨toNat_tablesCount hle, fun k hk => getElem?_allTables hk⟩
  · refine ⟨toNat_tablesCount hle, fun k hk => ?_⟩
    have hkept : (ts ++ [t])[k]? = ts[k]? := List.getElem?_append_left hk
    rw [← hkept]
    exact getElem?_allTables (by rw [List.length_append]; omega)

variable {ι : Type} [DecidableEq ι] {node : ι → LockNode ι} {ts : List τ} {order : List (Append τ)}
  {s : State ι (Append τ) (GlobalSignatureTable τ)}

/-- How many operations of an append are left. -/
def rank : Append τ → Nat
  | .loadIndex _ => 3
  | .store _ _ => 2
  | .loadCount => 1
  | .storeCount _ => 0

/-- The tables in the order of the exchanges, in a reached state: those registered and those of the
calls that wait or are at work. -/
theorem registered_of_reached (h : Reached append (init node setIsMaster) (ts.map .loadIndex) order s) :
    ∃ done waiting early : List τ, order = (done ++ waiting).map .loadIndex ∧
    ts.Perm (done ++ waiting ++ early) ∧
      done.length ≤ maxThreadCount ∧ (s.data = registered done ∨ ∃ t, s.data = stored done t) ∧
      ((∀ i, s.pc i = .outside) → waiting = [] ∧ early = [] ∧ s.data = registered done) ∧
      ∀ i, McsLock.step append s i = none → done.length = maxThreadCount ∧ waiting ≠ [] := by
  obtain ⟨q, early', done', hs⟩ := h.served
  have hinOrder := hs.counted.inOrder
  have hperm := hs.counted.perm
  rw [hinOrder] at hperm
  have hmem : ∀ a, a ∈ done' ++ args s q ++ args s early' → a ∈ ts.map Append.loadIndex :=
    fun a ha => hperm.mem_iff.2 ha
  obtain ⟨done, rfl⟩ := exists_tables fun a ha => hmem a (List.mem_append_left _ (List.mem_append_left _ ha))
  obtain ⟨waiting, hwaiting⟩ := exists_tables fun a ha =>
    hmem a (List.mem_append_left _ (List.mem_append_right _ ha))
  obtain ⟨early, hearly⟩ := exists_tables fun a ha => hmem a (List.mem_append_right _ ha)
  rw [hwaiting, hearly, ← List.map_append, ← List.map_append] at hperm
  have hinj : Function.Injective (Append.loadIndex (τ := τ)) := fun a b hab => by
    cases hab
    rfl
  refine ⟨done, waiting, early, by rw [hinOrder, hwaiting, List.map_append],
    (List.map_perm_map_iff hinj).1 hperm, ?_⟩
  by_cases hbusy : ∃ i c k, s.pc i = .critical c k
  · obtain ⟨i, c, k, hi⟩ := hbusy
    obtain ⟨g, hserial, hworks⟩ := hs.guarded.busy i c k hi
    obtain ⟨rfl, hle⟩ := append_serial hserial rfl
    obtain ⟨rest, hrest⟩ := hs.first_waiting hi
    rw [hwaiting] at hrest
    obtain ⟨t, waiting, rfl, rfl, -⟩ := List.map_eq_cons_iff.1 hrest
    have hcases := append_works hle hworks
    refine ⟨hle, ?_, fun hall => ?_, fun j hj => ?_⟩
    · rcases hcases with ⟨hdata, -⟩ | ⟨-, hdata, -⟩
      · exact .inl hdata
      · exact .inr ⟨t, hdata⟩
    · rw [hall i] at hi
      cases hi
    · obtain ⟨c', k', hj', hnone⟩ := hs.queue.of_step_none hj
      obtain rfl := hs.queue.exclusive hi hj'
      rw [hi] at hj'
      cases hj'
      refine ⟨?_, by simp⟩
      rcases hcases with ⟨hdata, rfl | rfl⟩ | ⟨-, -, rfl | rfl⟩
      · cases hnone
      · rw [hdata, append, toNat_tablesCount hle, length_allTables hle] at hnone
        split at hnone
        · cases hnone
        · omega
      · cases hnone
      · cases hnone
  · simp only [not_exists] at hbusy
    obtain ⟨hdata, hle⟩ := append_serial (hs.guarded.free hbusy) rfl
    refine ⟨hle, .inl hdata, fun hall => ?_, fun j hj => ?_⟩
    · obtain ⟨rfl, rfl⟩ := hs.nobody hall
      exact ⟨List.map_eq_nil_iff.1 hwaiting.symm, List.map_eq_nil_iff.1 hearly.symm, hdata⟩
    · obtain ⟨c, k, hj', -⟩ := hs.queue.of_step_none hj
      exact absurd hj' (hbusy j c k)

/-- An append is undefined only at a store outside the array. -/
theorem append_eq_none {k : Append τ} {g : GlobalSignatureTable τ} (h : append k g = none) :
    ∃ t index, k = .store t index ∧ g.allTables.length ≤ index.toNat := by
  cases k with
  | store t index =>
    rw [append] at h
    split at h
    · cases h
    · exact ⟨t, index, rfl, Nat.le_of_not_lt ‹_›⟩
  | _ => cases h

theorem rank_lt {k k' : Append τ} {g g' : GlobalSignatureTable τ} (h : append k g = some (g', some k')) :
    rank k' < rank k := by
  cases k with
  | store t index =>
    rw [append] at h
    split at h <;> cases h
    exact Nat.lt_succ_self _
  | _ => cases h <;> exact Nat.lt_succ_self _

/-- More calls than the array has room for can run on until one of them is about to store behind it. -/
theorem exists_store_outside (hfull : maxThreadCount < ts.length)
    (h : Reached append (init node setIsMaster) (ts.map .loadIndex) order s) :
    ∃ (order' : List (Append τ)) (s' : State ι (Append τ) (GlobalSignatureTable τ)) (i : ι) (call : Append τ)
      (t : τ) (index : BitVec 32), Reached append (init node setIsMaster) (ts.map .loadIndex) order' s' ∧
        s'.pc i = .critical call (.store t index) ∧ s'.data.allTables.length ≤ index.toNat := by
  obtain ⟨order', s', h', hall | ⟨i, hi⟩⟩ := h.completes fun k g g' k' => rank_lt
  · obtain ⟨done, waiting, early, -, hperm, hle, -, hdone, -⟩ := registered_of_reached h'
    obtain ⟨rfl, rfl, -⟩ := hdone hall
    have hlen := hperm.length_eq
    rw [List.append_nil, List.append_nil] at hlen
    omega
  · obtain ⟨q, early, done, hs⟩ := h'.served
    obtain ⟨call, k, hpc, hnone⟩ := hs.queue.of_step_none hi
    obtain ⟨t, index, rfl, houtside⟩ := append_eq_none hnone
    exact ⟨order', s', i, call, t, index, h', hpc, houtside⟩

/-- Two threads: the first has returned, the second has stored its table and not counted it. -/
theorem reached_two : ∃ s : State (Fin 2) (Append ℕ) (GlobalSignatureTable ℕ),
    Reached append (init (fun _ => ⟨none, false⟩) setIsMaster) ([10, 20].map .loadIndex)
        ([10, 20].map .loadIndex) s ∧
      s.pc 1 = .critical (.loadIndex 20) .loadCount ∧ s.data.tablesCount = 1 ∧
      s.data.allTables[1]? = some (some 20) := by
  have h₀ : Reached append (init (fun _ : Fin 2 => ⟨none, false⟩) (setIsMaster : GlobalSignatureTable ℕ)) [] []
      _ := .start
  have h₁ := ((Reached.call (i := 0) (.loadIndex 10) h₀ rfl).step (i := 0) rfl).step (i := 0) rfl
  have h₂ := (h₁.step (i := 0) rfl).step (i := 0) rfl
  have h₃ := ((h₂.step (i := 0) rfl).step (i := 0) rfl).step (i := 0) rfl
  have h₄ := (h₃.step (i := 0) rfl).step (i := 0) rfl
  have h₅ := ((Reached.call (i := 1) (.loadIndex 20) h₄ rfl).step (i := 1) rfl).step (i := 1) rfl
  have h₆ := (h₅.step (i := 1) rfl).step (i := 1) rfl
  exact ⟨_, h₆.step (i := 1) rfl, rfl, rfl, rfl⟩

end GlobalSignatureTable

end BlindBox

end Embark
