/-
Live reconfiguration of the flow table. A new `MBarkTable` takes the state of the old one by swapping
`_table`, which holds the IPv6 flows. `_table_v4` stays behind, so the IPv4 flows survive only where
their lookup gives the zero flow already.
-/
import Embark.Gateway.Reverse

namespace Embark

/-- A call of either overload of `insert`. -/
inductive FlowInsert
  | v6 (before after : IP6FlowID)
  | v4 (before after : IPFlowID)

namespace MBarkTable

/-! ## The table -/

/-- `insert`. -/
def insert (t : MBarkTable) : FlowInsert → MBarkTable
  | .v6 before after => { t with table := t.table.insert before after }
  | .v4 before after => { t with tableV4 := t.tableV4.insert before after }

/-- `lookup` of an IPv6 flow. -/
def lookup (t : MBarkTable) (after : IP6FlowID) : IP6FlowID := t.table.lookup after

/-- `lookup` of an IPv4 flow. -/
def lookupV4 (t : MBarkTable) (after : IPFlowID) : IPFlowID := t.tableV4.lookup after

/-- `take_state`: both elements after the call. The other element is an `MBarkTable` if the cast
gives one. -/
def takeState (t : MBarkTable) : Option MBarkTable → MBarkTable × Option MBarkTable
  | none => (t, none)
  | some mbarkt => ({ t with table := mbarkt.table }, some { mbarkt with table := t.table })

/-- A history of calls on a constructed table. -/
def ofInserts (hist : List FlowInsert) : MBarkTable := hist.foldl insert empty

/-- The constructed table after it took the state of `t`. -/
def swapped (t : MBarkTable) : MBarkTable := (empty.takeState (some t)).1

/-- Every lookup in the new table answers what it did in the old one. -/
def KeepsFlows (t : MBarkTable) : Prop :=
  (∀ k, t.swapped.lookup k = t.lookup k) ∧ ∀ k, t.swapped.lookupV4 k = t.lookupV4 k

/-! ## Histories -/

/-- The IPv4 flows of a history, in order. -/
def insertedV4 (hist : List FlowInsert) : List (IPFlowID × IPFlowID) :=
  hist.filterMap fun
    | .v6 _ _ => none
    | .v4 before after => some (before, after)

@[simp] theorem insertedV4_v6 (hist : List FlowInsert) (b a : IP6FlowID) :
    insertedV4 (hist ++ [.v6 b a]) = insertedV4 hist := by
  simp [insertedV4]

@[simp] theorem insertedV4_v4 (hist : List FlowInsert) (b a : IPFlowID) :
    insertedV4 (hist ++ [.v4 b a]) = insertedV4 hist ++ [(b, a)] := by
  simp [insertedV4]

theorem ofInserts_append (hist : List FlowInsert) (i : FlowInsert) :
    ofInserts (hist ++ [i]) = (ofInserts hist).insert i := by
  unfold ofInserts
  rw [List.foldl_append]
  rfl

/-- The table holds the flow last inserted for a key. -/
theorem tableV4_ofInserts (hist : List FlowInsert) : (ofInserts hist).tableV4 = latest (insertedV4 hist) := by
  induction hist using List.reverseRecOn with
  | nil => rfl
  | append_singleton hist i ih =>
    rw [ofInserts_append]
    cases i with
    | v6 before after =>
      rw [insertedV4_v6]
      exact ih
    | v4 before after =>
      funext k
      rw [insertedV4_v4, latest_append, ← ih]
      rfl

/-! ## The swap -/

theorem lookup_swapped (t : MBarkTable) (k : IP6FlowID) : t.swapped.lookup k = t.lookup k := rfl

theorem lookupV4_swapped (t : MBarkTable) (k : IPFlowID) : t.swapped.lookupV4 k = FlowID.zero := rfl

theorem keepsFlows_iff_zero (t : MBarkTable) : t.KeepsFlows ↔ ∀ k, t.lookupV4 k = FlowID.zero := by
  unfold KeepsFlows
  rw [and_iff_right (lookup_swapped t)]
  simp only [lookupV4_swapped]
  exact forall_congr' fun k => eq_comm

/-- A hot swap after any history keeps every flow if and only if no IPv4 key was last given another
flow than the zero flow. -/
theorem keepsFlows_iff (hist : List FlowInsert) : (ofInserts hist).KeepsFlows ↔
    ∀ before after, latest (insertedV4 hist) before = some after → after = FlowID.zero := by
  rw [keepsFlows_iff_zero]
  unfold lookupV4 FlowTable.lookup
  rw [tableV4_ofInserts]
  constructor
  · intro h before after hlatest
    have hzero := h before
    rwa [hlatest, Option.getD_some] at hzero
  · intro h k
    cases hk : latest (insertedV4 hist) k with
    | none => rfl
    | some after => exact h k after hk

/-- From 10.0.0.2 to port 80 of 10.0.0.3, in network order. -/
def webFlow : IPFlowID := ⟨0x0200000a, 0x3412, 0x0300000a, 0x5000⟩

theorem webFlow_lost : ¬ (ofInserts [.v4 webFlow webFlow]).KeepsFlows := by
  rw [keepsFlows_iff_zero]
  intro h
  have hzero : webFlow = FlowID.zero := h webFlow
  revert hzero
  decide

end MBarkTable

end Embark
