/-
The queue lock of `mcs_lock.h`: `mcs_lock`, `mcs_unlock` and a critical section, run by any number of
threads whose loads, stores and atomic operations interleave one by one. The threads between the
exchange of the tail and the release form a queue: its first one owns the lock, every other one waits
behind the one before it. So at most one thread is in the critical section, the threads get there in
the order of their exchanges, and the shared data are those of the sections run one after the other.

Memory is sequentially consistent. A thread has one node, on the stack of the call it is in.
-/
import Mathlib.Algebra.Order.BigOperators.Group.Finset
import Mathlib.Data.List.Perm.Basic
import Mathlib.Logic.Function.Basic
import Mathlib.Logic.Relation

namespace Embark

namespace McsLock

/-! ## The source -/

/-- `_mcslock_node`, with `next` by the thread that owns the node. -/
structure LockNode (ι : Type) where
  next : Option ι
  wait : Bool
deriving Repr, DecidableEq

/-- What a thread does next, in a call with the argument `k`: one load, store or atomic operation of
`mcs_lock`, of the critical section, which `call` entered and which is at `k`, or of `mcs_unlock`. -/
inductive Pc (ι κ : Type)
  | outside
  | clearNext (k : κ)
  | setWait (k : κ)
  | fetchAndStore (k : κ)
  | link (pre : ι) (k : κ)
  | spin (k : κ)
  | critical (call k : κ)
  | readNext
  | compareAndStore
  | awaitNext
  | loadNext
  | grant (next : ι)
deriving Repr, DecidableEq

/-- The lock, the nodes of the threads, where they are, and the data that the lock guards. -/
structure State (ι κ σ : Type) where
  tail : Option ι
  node : ι → LockNode ι
  pc : ι → Pc ι κ
  data : σ

/-- `mcs_lock_init`. The nodes hold what their stacks held. -/
def init {ι κ σ : Type} (node : ι → LockNode ι) (data : σ) : State ι κ σ :=
  ⟨none, node, fun _ => .outside, data⟩

variable {ι κ σ : Type} [DecidableEq ι]

namespace State

def goto (s : State ι κ σ) (i : ι) (pc : Pc ι κ) : State ι κ σ := { s with pc := Function.update s.pc i pc }

def setNext (s : State ι κ σ) (i : ι) (next : Option ι) : State ι κ σ :=
  { s with node := Function.update s.node i { s.node i with next } }

def setWait (s : State ι κ σ) (i : ι) (wait : Bool) : State ι κ σ :=
  { s with node := Function.update s.node i { s.node i with wait } }

end State

/-- The next operation of the thread `i`. A critical section is given by its operations, each of which
ends with the next one or with none; `none` is undefined behaviour, in it or at a null pointer. -/
def step (body : κ → σ → Option (σ × Option κ)) (s : State ι κ σ) (i : ι) : Option (State ι κ σ) :=
  match s.pc i with
  | .outside => some s
  | .clearNext k => some ((s.setNext i none).goto i (.setWait k))
  | .setWait k => some ((s.setWait i true).goto i (.fetchAndStore k))
  | .fetchAndStore k =>
    match s.tail with
    | none => some ({ s with tail := some i }.goto i (.critical k k))
    | some pre => some ({ s with tail := some i }.goto i (.link pre k))
  | .link pre k => some ((s.setNext pre (some i)).goto i (.spin k))
  | .spin k => if (s.node i).wait then some s else some (s.goto i (.critical k k))
  | .critical call k => do
    let (data, next) ← body k s.data
    match next with
    | some k' => return { s with data }.goto i (.critical call k')
    | none => return { s with data }.goto i .readNext
  | .readNext => if (s.node i).next = none then some (s.goto i .compareAndStore) else some (s.goto i .loadNext)
  | .compareAndStore =>
    if s.tail = some i then some ({ s with tail := none }.goto i .outside) else some (s.goto i .awaitNext)
  | .awaitNext => if (s.node i).next = none then some s else some (s.goto i .loadNext)
  | .loadNext => (s.node i).next.map fun j => s.goto i (.grant j)
  | .grant j => some ((s.setWait j false).goto i .outside)

/-- The arguments of the calls that exchange the tail in a step of `i`. -/
def exchanged (s : State ι κ σ) (i : ι) : List κ :=
  match s.pc i with
  | .fetchAndStore k => [k]
  | _ => []

/-- The states that any number of threads reach with calls and operations in any order, with the
arguments of the calls begun and of those that have exchanged the tail, in order. -/
inductive Reached (body : κ → σ → Option (σ × Option κ)) (s₀ : State ι κ σ) :
    List κ → List κ → State ι κ σ → Prop
  | start : Reached body s₀ [] [] s₀
  | call {calls order : List κ} {s : State ι κ σ} {i : ι} (k : κ) (h : Reached body s₀ calls order s)
    (hi : s.pc i = .outside) : Reached body s₀ (calls ++ [k]) order (s.goto i (.clearNext k))
  | step {calls order : List κ} {s s' : State ι κ σ} {i : ι} (h : Reached body s₀ calls order s)
    (hs : step body s i = some s') : Reached body s₀ calls (order ++ exchanged s i) s'

/-! ## The queue -/

/-- The thread `c` waits behind `p`: it has yet to link its node to that of `p`, or it spins. -/
def Behind (s : State ι κ σ) (p c : ι) : Prop :=
  (s.node c).wait = true ∧
    ((∃ k, s.pc c = .link p k ∧ (s.node p).next = none) ∨ ∃ k, s.pc c = .spin k ∧ (s.node p).next = some c)

/-- Every thread but the first waits behind the one before it, and nothing is linked to the last. -/
def Line (s : State ι κ σ) : List ι → Prop
  | [] => True
  | [l] => (s.node l).next = none
  | p :: c :: q => Behind s p c ∧ Line s (c :: q)

/-- The thread `h` owns the lock, or has been granted it. -/
def Owner (s : State ι κ σ) (h : ι) : Prop :=
  match s.pc h with
  | .spin _ => (s.node h).wait = false
  | .critical _ _ | .readNext | .compareAndStore => True
  | .awaitNext => s.tail ≠ some h
  | .loadNext => (s.node h).next ≠ none
  | .grant j => (s.node h).next = some j
  | _ => False

/-- The thread `i` has not exchanged the tail. -/
def Early (s : State ι κ σ) (i : ι) : Prop :=
  match s.pc i with
  | .outside | .clearNext _ => True
  | .setWait _ => (s.node i).next = none
  | .fetchAndStore _ => (s.node i).next = none ∧ (s.node i).wait = true
  | _ => False

/-- The queue after the next operation of `i`. -/
def nextQueue (s : State ι κ σ) (i : ι) (q : List ι) : List ι :=
  match s.pc i with
  | .fetchAndStore _ => q ++ [i]
  | .compareAndStore => if s.tail = some i then [] else q
  | .grant _ => q.tail
  | _ => q

/-- The queue of the lock. -/
structure Queue (s : State ι κ σ) (q : List ι) : Prop where
  tail : s.tail = q.getLast?
  nodup : q.Nodup
  owner : ∀ h ∈ q.head?, Owner s h
  line : Line s q
  early : ∀ i, i ∉ q → Early s i

section Queue

variable {s s' : State ι κ σ} {i p : ι} {q : List ι} {k : κ} {pc : Pc ι κ}

@[simp] theorem goto_tail : (s.goto i pc).tail = s.tail := rfl
@[simp] theorem goto_node : (s.goto i pc).node = s.node := rfl
@[simp] theorem goto_data : (s.goto i pc).data = s.data := rfl
@[simp] theorem goto_pc : (s.goto i pc).pc = Function.update s.pc i pc := rfl

@[simp] theorem setNext_pc (n : Option ι) : (s.setNext p n).pc = s.pc := rfl
@[simp] theorem setNext_tail (n : Option ι) : (s.setNext p n).tail = s.tail := rfl
@[simp] theorem setNext_data (n : Option ι) : (s.setNext p n).data = s.data := rfl
@[simp] theorem setWait_pc (w : Bool) : (s.setWait p w).pc = s.pc := rfl
@[simp] theorem setWait_tail (w : Bool) : (s.setWait p w).tail = s.tail := rfl
@[simp] theorem setWait_data (w : Bool) : (s.setWait p w).data = s.data := rfl

@[simp] theorem setNext_next_self (n : Option ι) : ((s.setNext p n).node p).next = n := by
  simp [State.setNext]

theorem setNext_next_of_ne (n : Option ι) (h : i ≠ p) : ((s.setNext p n).node i).next = (s.node i).next := by
  simp [State.setNext, Function.update_of_ne h]

@[simp] theorem setNext_wait (n : Option ι) (i : ι) : ((s.setNext p n).node i).wait = (s.node i).wait := by
  by_cases h : i = p
  · subst h
    simp [State.setNext]
  · simp [State.setNext, Function.update_of_ne h]

@[simp] theorem setWait_wait_self (w : Bool) : ((s.setWait p w).node p).wait = w := by
  simp [State.setWait]

theorem setWait_wait_of_ne (w : Bool) (h : i ≠ p) : ((s.setWait p w).node i).wait = (s.node i).wait := by
  simp [State.setWait, Function.update_of_ne h]

@[simp] theorem setWait_next (w : Bool) (i : ι) : ((s.setWait p w).node i).next = (s.node i).next := by
  by_cases h : i = p
  · subst h
    simp [State.setWait]
  · simp [State.setWait, Function.update_of_ne h]

omit [DecidableEq ι] in
/-- Waiting depends on the links of the queue, and on the flags and places of all but its first. -/
theorem Line.congr : ∀ {q : List ι}, Line s q → (∀ i ∈ q, (s'.node i).next = (s.node i).next) →
    (∀ i ∈ q.tail, s'.pc i = s.pc i ∧ (s'.node i).wait = (s.node i).wait) → Line s' q
  | [], _, _, _ => trivial
  | [l], hl, hnext, _ => (hnext l (List.mem_singleton_self l)).trans hl
  | p :: c :: q, ⟨hbehind, hl⟩, hnext, hpc => by
    have hp : (s'.node p).next = (s.node p).next := hnext p (List.mem_cons_self ..)
    obtain ⟨hc, hw⟩ := hpc c (List.mem_cons_self ..)
    refine ⟨?_, hl.congr (fun i hi => hnext i (List.mem_cons_of_mem _ hi)) fun i hi =>
      hpc i (List.mem_cons_of_mem _ hi)⟩
    unfold Behind
    rw [hp, hc, hw]
    exact hbehind

omit [DecidableEq ι] in
theorem Line.snoc : ∀ {q : List ι}, Line s q → (∀ l ∈ q.getLast?, Behind s l i) → (s.node i).next = none →
    Line s (q ++ [i])
  | [], _, _, hi => hi
  | [l], _, hbehind, hi => ⟨hbehind l rfl, hi⟩
  | _ :: c :: q, ⟨h, hl⟩, hbehind, hi =>
    ⟨h, Line.snoc hl (fun l hl => hbehind l (by rwa [List.getLast?_cons_cons])) hi⟩

omit [DecidableEq ι] in
theorem Line.behind : ∀ {q : List ι}, Line s q → ∀ i ∈ q.tail, ∃ p ∈ q, Behind s p i
  | p :: c :: q, ⟨h, hl⟩, i, hi => by
    rcases List.mem_cons.1 hi with rfl | hi
    · exact ⟨p, List.mem_cons_self .., h⟩
    · obtain ⟨p', hp', hbehind⟩ := hl.behind i hi
      exact ⟨p', List.mem_cons_of_mem _ hp', hbehind⟩

omit [DecidableEq ι] in
theorem Line.last : ∀ {q : List ι}, Line s q → ∀ l ∈ q.getLast?, (s.node l).next = none
  | [l], hl, m, hm => by
    cases hm
    exact hl
  | _ :: c :: q, ⟨_, hl⟩, m, hm => hl.last m (by rwa [List.getLast?_cons_cons] at hm)

/-- A thread links its node to the one before it. -/
theorem Line.link : ∀ {q : List ι}, Line s q → q.Nodup → i ∈ q.tail → s.pc i = .link p k →
    p ∈ q ∧ Line ((s.setNext p (some i)).goto i (.spin k)) q
  | h :: c :: q, ⟨⟨hwait, hbehind⟩, hl⟩, hnodup, hi, hpc => by
    obtain ⟨hh, hrest⟩ := List.nodup_cons.1 hnodup
    by_cases hic : c = i
    · -- it is the second of the queue
      subst hic
      obtain ⟨rfl, -⟩ : p = h ∧ (s.node h).next = none := by
        rcases hbehind with ⟨k', hlink, hnext⟩ | ⟨k', hspin, -⟩
        · rw [hpc] at hlink
          cases hlink
          exact ⟨rfl, hnext⟩
        · rw [hpc] at hspin
          cases hspin
      have hne : ∀ j ∈ c :: q, j ≠ p := fun j hj he => hh (he ▸ hj)
      refine ⟨List.mem_cons_self .., ⟨by simpa using hwait, .inr ⟨k, Function.update_self .., by simp⟩⟩, ?_⟩
      have hnot : ∀ j ∈ q, j ≠ c := fun j hj he => (List.nodup_cons.1 hrest).1 (he ▸ hj)
      exact hl.congr (fun j hj => by simp [setNext_next_of_ne _ (hne j hj)]) fun j hj =>
        ⟨Function.update_of_ne (hnot j hj) _ _, by simp⟩
    · obtain ⟨hp, hl'⟩ := hl.link hrest ((List.mem_cons.1 hi).resolve_left (Ne.symm hic)) hpc
      have hne : h ≠ p := fun he => hh (he ▸ hp)
      refine ⟨List.mem_cons_of_mem _ hp, ⟨by simpa using hwait, ?_⟩, hl'⟩
      simpa [setNext_next_of_ne _ hne, Function.update_of_ne hic] using hbehind

/-- A thread has not exchanged the tail, is the first of the queue, or waits in it. -/
theorem Queue.cases (hq : Queue s q) (i : ι) :
    i ∉ q ∧ Early s i ∨ (∃ q', q = i :: q' ∧ Owner s i) ∨ i ∈ q.tail ∧ ∃ p ∈ q, Behind s p i := by
  by_cases hi : i ∈ q
  · cases q with
    | nil => cases hi
    | cons h q' =>
      rcases List.mem_cons.1 hi with rfl | hi
      · exact .inr (.inl ⟨q', rfl, hq.owner i rfl⟩)
      · exact .inr (.inr ⟨hi, hq.line.behind i hi⟩)
  · exact .inl ⟨hi, hq.early i hi⟩

theorem Queue.of_early (hq : Queue s q) (ho : ¬ Owner s i) (hb : ∀ p, ¬ Behind s p i) : i ∉ q ∧ Early s i := by
  rcases hq.cases i with h | ⟨q', -, h⟩ | ⟨-, p, -, h⟩
  · exact h
  · exact absurd h ho
  · exact absurd h (hb p)

theorem Queue.of_owner (hq : Queue s q) (he : ¬ Early s i) (hb : ∀ p, ¬ Behind s p i) :
    ∃ q', q = i :: q' ∧ Owner s i := by
  rcases hq.cases i with ⟨-, h⟩ | h | ⟨-, p, -, h⟩
  · exact absurd h he
  · exact h
  · exact absurd h (hb p)

theorem Queue.of_behind (hq : Queue s q) (he : ¬ Early s i) (ho : ¬ Owner s i) :
    i ∈ q.tail ∧ ∃ p ∈ q, Behind s p i := by
  rcases hq.cases i with ⟨-, h⟩ | ⟨q', -, h⟩ | h
  · exact absurd h he
  · exact absurd h ho
  · exact h

omit [DecidableEq ι] in
theorem Queue.tail_nodup (hq : Queue s q) {q' : List ι} (h : q = i :: q') : i ∉ q' ∧ q'.Nodup := by
  have hnodup := hq.nodup
  rw [h] at hnodup
  exact List.nodup_cons.1 hnodup

/-- A change of the place of the thread `i`, of its node and of the data that leaves the queue as it is. -/
theorem Queue.keep (hq : Queue s q) (htail : s'.tail = s.tail)
    (hother : ∀ j, j ≠ i → s'.pc j = s.pc j ∧ s'.node j = s.node j)
    (hnext : i ∈ q → (s'.node i).next = (s.node i).next) (hearly : i ∉ q → Early s' i)
    (howner : ∀ q', q = i :: q' → Owner s' i) (hwaits : i ∉ q.tail) : Queue s' q where
  tail := htail.trans hq.tail
  nodup := hq.nodup
  owner h hh := by
    by_cases hi : h = i
    · subst hi
      obtain ⟨q', rfl⟩ : ∃ q', q = h :: q' := List.head?_eq_some_iff.1 hh
      exact howner q' rfl
    · have ho := hq.owner h hh
      obtain ⟨hpc, hnode⟩ := hother h hi
      unfold Owner at ho ⊢
      rwa [hpc, hnode, htail]
  line := by
    refine hq.line.congr (fun j hj => ?_) fun j hj => ?_
    · by_cases hi : j = i
      · subst hi
        exact hnext hj
      · rw [(hother j hi).2]
    · have hi : j ≠ i := fun he => hwaits (he ▸ hj)
      obtain ⟨hpc, hnode⟩ := hother j hi
      exact ⟨hpc, by rw [hnode]⟩
  early j hj := by
    by_cases hi : j = i
    · subst hi
      exact hearly hj
    · have he := hq.early j hj
      obtain ⟨hpc, hnode⟩ := hother j hi
      unfold Early at he ⊢
      rwa [hpc, hnode]

omit [DecidableEq ι] in
/-- The first thread is also the last. -/
theorem Queue.eq_nil_of_tail {q' : List ι} (hq : Queue s (i :: q')) (htail : s.tail = some i) : q' = [] := by
  by_contra hne
  refine (hq.tail_nodup rfl).1 ?_
  have hlast := hq.tail
  rw [htail, List.getLast?_cons, List.getLast?_eq_some_getLast hne] at hlast
  rw [show i = q'.getLast hne by simpa using hlast]
  exact List.getLast_mem hne

variable {body : κ → σ → Option (σ × Option κ)}

/-- A step of the first thread of the queue that stays there. -/
theorem Queue.keep_owner (hq : Queue s q) {q' : List ι} (hfirst : q = i :: q') (data : σ)
    (ho : Owner ({ s with data }.goto i pc) i) : Queue ({ s with data }.goto i pc) q := by
  obtain ⟨hi, -⟩ := hq.tail_nodup hfirst
  subst hfirst
  exact hq.keep rfl (fun j hj => ⟨Function.update_of_ne hj _ _, rfl⟩) (fun _ => rfl)
    (fun h => absurd (List.mem_cons_self ..) h) (fun _ _ => ho) hi

/-- A step of a thread that has not exchanged the tail, and does not exchange it in the step. -/
theorem Queue.keep_early (hq : Queue s q) (hi : i ∉ q) (htail : s'.tail = s.tail)
    (hother : ∀ j, j ≠ i → s'.pc j = s.pc j ∧ s'.node j = s.node j) (he : Early s' i) : Queue s' q := by
  refine hq.keep htail hother (fun h => absurd h hi) (fun _ => he) (fun q' h => ?_) fun h => hi (List.mem_of_mem_tail h)
  exact absurd (h ▸ List.mem_cons_self ..) hi

/-- A thread that finds nobody in the queue has the lock. -/
theorem Queue.enqueue_first (hq : Queue s []) (hnext : (s.node i).next = none) :
    Queue ({ s with tail := some i }.goto i (.critical k k)) [i] := by
  refine ⟨rfl, List.nodup_singleton i, ?_, hnext, ?_⟩
  · rintro h ⟨⟩
    simp [Owner]
  · intro j hj
    have hji : j ≠ i := fun h => hj (List.mem_singleton.2 h)
    simpa [Early, Function.update_of_ne hji] using hq.early j List.not_mem_nil

/-- A thread that finds `pre` at the end of the queue waits behind it. -/
theorem Queue.enqueue (hq : Queue s q) (hi : i ∉ q) (hnext : (s.node i).next = none) (hwait : (s.node i).wait = true)
    {pre : ι} (hlast : s.tail = some pre) : Queue ({ s with tail := some i }.goto i (.link pre k)) (q ++ [i]) := by
  have hne : ∀ j ∈ q, j ≠ i := fun j hj he => hi (he ▸ hj)
  have htail : q.getLast? = some pre := hq.tail.symm.trans hlast
  obtain ⟨h, q', rfl⟩ : ∃ h q', q = h :: q' :=
    List.exists_cons_of_ne_nil (List.ne_nil_of_mem (List.mem_of_getLast? htail))
  refine ⟨List.getLast?_concat.symm, ?_, fun h' hh => ?_, Line.snoc ?_ (fun l hl => ?_) hnext, fun j hj => ?_⟩
  · rw [List.nodup_append]
    exact ⟨hq.nodup, List.nodup_singleton i, fun a ha b hb => by rw [List.mem_singleton.1 hb]; exact hne a ha⟩
  · -- the first thread stays the owner: it is not the last one any more
    obtain rfl : h = h' := by simpa using hh
    have ho := hq.owner h rfl
    have hhi := hne h (List.mem_cons_self ..)
    unfold Owner at ho ⊢
    simp only [goto_pc, goto_node, goto_tail, Function.update_of_ne hhi]
    cases hpc' : s.pc h <;> rw [hpc'] at ho <;> first | exact ho | exact fun he => hhi (Option.some.inj he).symm
  · refine hq.line.congr (fun _ _ => rfl) fun j hj => ⟨?_, rfl⟩
    exact Function.update_of_ne (hne j (List.mem_of_mem_tail hj)) _ _
  · obtain rfl : pre = l := Option.some.inj (htail.symm.trans hl)
    exact ⟨hwait, .inl ⟨k, Function.update_self .., hq.line.last pre htail⟩⟩
  · rw [List.mem_append, List.mem_singleton, not_or] at hj
    simpa [Early, Function.update_of_ne hj.2] using hq.early j hj.1

/-- A waiting thread links its node. -/
theorem Queue.link (hq : Queue s q) (hpc : s.pc i = .link p k) : Queue ((s.setNext p (some i)).goto i (.spin k)) q := by
  obtain ⟨hi, -⟩ := hq.of_behind (i := i) (by simp [Early, hpc]) (by simp [Owner, hpc])
  obtain ⟨hp, hline⟩ := hq.line.link hq.nodup hi hpc
  have hnone : (s.node p).next = none := by
    obtain ⟨p', -, -, ⟨k', hlink, hnext⟩ | ⟨k', hspin, -⟩⟩ := hq.line.behind i hi
    · rw [hpc] at hlink
      cases hlink
      exact hnext
    · rw [hpc] at hspin
      cases hspin
  refine ⟨hq.tail, hq.nodup, fun h hh => ?_, hline, fun j hj => ?_⟩
  · obtain ⟨q', rfl⟩ : ∃ q', q = h :: q' := List.head?_eq_some_iff.1 hh
    have hhi : h ≠ i := fun he => (hq.tail_nodup rfl).1 (he ▸ hi)
    have ho := hq.owner h rfl
    unfold Owner at ho ⊢
    simp only [goto_pc, setNext_pc, goto_tail, setNext_tail, goto_node, setNext_wait, Function.update_of_ne hhi]
    by_cases hhp : h = p
    · subst hhp
      cases hpc' : s.pc h <;> simp_all
    · rwa [setNext_next_of_ne _ hhp]
  · have hji : j ≠ i := fun he => hj (by rw [he]; exact List.mem_of_mem_tail hi)
    have hjp : j ≠ p := fun he => hj (by rw [he]; exact hp)
    simpa [Early, Function.update_of_ne hji, setNext_next_of_ne _ hjp] using hq.early j hj

/-- The only thread of the queue leaves it. -/
theorem Queue.release (hq : Queue s [i]) : Queue ({ s with tail := none }.goto i .outside) [] := by
  refine ⟨rfl, List.nodup_nil, nofun, trivial, fun j _ => ?_⟩
  by_cases hj : j = i
  · simp [Early, hj]
  · have hnot : j ∉ [i] := by rwa [List.mem_singleton]
    simpa [Early, Function.update_of_ne hj] using hq.early j hnot

omit [DecidableEq ι] in
/-- The thread behind the owner of the lock is the one its node is linked to, and spins. -/
theorem Queue.second_of_next {q' : List ι} {j : ι} (hq : Queue s (i :: q')) (hnext : (s.node i).next = some j) :
    ∃ rest k, q' = j :: rest ∧ s.pc j = .spin k := by
  cases q' with
  | nil =>
    have hlast : (s.node i).next = none := hq.line
    rw [hlast] at hnext
    cases hnext
  | cons c rest =>
    obtain ⟨⟨-, hbehind⟩, -⟩ := hq.line
    rcases hbehind with ⟨k, -, hnone⟩ | ⟨k, hspin, hsome⟩
    · rw [hnone] at hnext
      cases hnext
    · rw [hsome] at hnext
      cases hnext
      exact ⟨rest, k, rfl, hspin⟩

/-- The owner of the lock passes it on to the next thread. -/
theorem Queue.grant {q' : List ι} {j : ι} (hq : Queue s (i :: q')) (hnext : (s.node i).next = some j) :
    Queue ((s.setWait j false).goto i .outside) q' := by
  obtain ⟨hi, hnodup⟩ := hq.tail_nodup rfl
  obtain ⟨rest, k, rfl, hspin⟩ := hq.second_of_next hnext
  obtain ⟨-, hline⟩ := hq.line
  have hji : j ≠ i := fun he => hi (he ▸ List.mem_cons_self ..)
  refine ⟨hq.tail, hnodup, ?_, ?_, fun l hl => ?_⟩
  · rintro h ⟨⟩
    simp [Owner, Function.update_of_ne hji, hspin]
  · refine hline.congr (fun l _ => by simp) fun l hl => ?_
    have hli : l ≠ i := fun he => hi (by rw [← he]; exact List.mem_cons_of_mem _ hl)
    have hlj : l ≠ j := fun he => (List.nodup_cons.1 hnodup).1 (by rw [← he]; exact hl)
    exact ⟨Function.update_of_ne hli _ _, by simp [setWait_wait_of_ne _ hlj]⟩
  · by_cases hli : l = i
    · simp [Early, hli]
    · have hlj : l ≠ j := fun he => hl (he ▸ List.mem_cons_self ..)
      have he := hq.early l fun hmem => (List.mem_cons.1 hmem).elim hli hl
      simpa [Early, Function.update_of_ne hli, setWait_wait_of_ne _ hlj] using he

/-- Every operation keeps the queue. -/
theorem Queue.step (hq : Queue s q) (hs : step body s i = some s') : Queue s' (nextQueue s i q) := by
  unfold McsLock.step at hs
  unfold nextQueue
  cases hpc : s.pc i with
  | outside =>
    rw [hpc] at hs
    cases hs
    exact hq
  | clearNext k =>
    rw [hpc] at hs
    cases hs
    obtain ⟨hi, -⟩ := hq.of_early (i := i) (by simp [Owner, hpc]) (by simp [Behind, hpc])
    refine hq.keep_early hi rfl (fun j hj => ?_) ?_
    · exact ⟨Function.update_of_ne hj _ _, Function.update_of_ne hj _ _⟩
    · simp [Early]
  | setWait k =>
    rw [hpc] at hs
    cases hs
    obtain ⟨hi, he⟩ := hq.of_early (i := i) (by simp [Owner, hpc]) (by simp [Behind, hpc])
    refine hq.keep_early hi rfl (fun j hj => ?_) ?_
    · exact ⟨Function.update_of_ne hj _ _, Function.update_of_ne hj _ _⟩
    · simpa [Early, hpc] using he
  | fetchAndStore k =>
    obtain ⟨hi, he⟩ := hq.of_early (i := i) (by simp [Owner, hpc]) (by simp [Behind, hpc])
    obtain ⟨hnext, hwait⟩ : (s.node i).next = none ∧ (s.node i).wait = true := by simpa [Early, hpc] using he
    simp only [hpc] at hs
    cases hlast : s.tail with
    | none =>
      obtain rfl : q = [] := List.getLast?_eq_none_iff.1 (hq.tail.symm.trans hlast)
      rw [hlast] at hs
      cases hs
      exact hq.enqueue_first hnext
    | some pre =>
      rw [hlast] at hs
      cases hs
      exact hq.enqueue hi hnext hwait hlast
  | link pre k =>
    rw [hpc] at hs
    cases hs
    exact hq.link hpc
  | spin k =>
    simp only [hpc] at hs
    split at hs
    · cases hs
      exact hq
    · rename_i hwait
      cases hs
      obtain ⟨q', hfirst, -⟩ := hq.of_owner (i := i) (by simp [Early, hpc]) (by simp [Behind, hwait])
      exact hq.keep_owner hfirst s.data (by simp [Owner])
  | critical call k =>
    simp only [hpc, Option.bind_eq_bind, Option.bind_eq_some_iff] at hs
    obtain ⟨⟨data, next⟩, -, hs⟩ := hs
    obtain ⟨q', hfirst, -⟩ := hq.of_owner (i := i) (by simp [Early, hpc]) (by simp [Behind, hpc])
    cases next with
    | none =>
      cases hs
      exact hq.keep_owner hfirst data (by simp [Owner])
    | some k' =>
      cases hs
      exact hq.keep_owner hfirst data (by simp [Owner])
  | readNext =>
    simp only [hpc] at hs
    obtain ⟨q', hfirst, -⟩ := hq.of_owner (i := i) (by simp [Early, hpc]) (by simp [Behind, hpc])
    split at hs
    · cases hs
      exact hq.keep_owner hfirst s.data (by simp [Owner])
    · rename_i hnext
      cases hs
      exact hq.keep_owner hfirst s.data (by simpa [Owner] using hnext)
  | compareAndStore =>
    simp only [hpc] at hs
    obtain ⟨q', hfirst, -⟩ := hq.of_owner (i := i) (by simp [Early, hpc]) (by simp [Behind, hpc])
    split at hs
    · rename_i htail
      rw [if_pos htail]
      cases hs
      subst hfirst
      obtain rfl : q' = [] := hq.eq_nil_of_tail htail
      exact hq.release
    · rename_i htail
      rw [if_neg htail]
      cases hs
      exact hq.keep_owner hfirst s.data (by simpa [Owner] using htail)
  | awaitNext =>
    simp only [hpc] at hs
    obtain ⟨q', hfirst, -⟩ := hq.of_owner (i := i) (by simp [Early, hpc]) (by simp [Behind, hpc])
    split at hs
    · cases hs
      exact hq
    · rename_i hnext
      cases hs
      exact hq.keep_owner hfirst s.data (by simpa [Owner] using hnext)
  | loadNext =>
    simp only [hpc, Option.map_eq_some_iff] at hs
    obtain ⟨j, hnext, rfl⟩ := hs
    obtain ⟨q', hfirst, -⟩ := hq.of_owner (i := i) (by simp [Early, hpc]) (by simp [Behind, hpc])
    exact hq.keep_owner hfirst s.data (by simpa [Owner] using hnext)
  | grant j =>
    rw [hpc] at hs
    cases hs
    obtain ⟨q', rfl, ho⟩ := hq.of_owner (i := i) (by simp [Early, hpc]) (by simp [Behind, hpc])
    exact hq.grant (by simpa [Owner, hpc] using ho)

/-- The thread in the critical section is the first of the queue. -/
theorem Queue.first_of_critical (hq : Queue s q) {c k : κ} (hi : s.pc i = .critical c k) : q.head? = some i := by
  obtain ⟨q', hfirst, -⟩ := hq.of_owner (i := i) (by simp [Early, hi]) (by simp [Behind, hi])
  rw [hfirst]
  rfl

/-- At most one thread is in the critical section. -/
theorem Queue.exclusive (hq : Queue s q) {j : ι} {c k c' k' : κ} (hi : s.pc i = .critical c k)
    (hj : s.pc j = .critical c' k') :
    i = j := by
  have hfirst := hq.first_of_critical hi
  rw [hq.first_of_critical hj] at hfirst
  exact (Option.some.inj hfirst).symm

end Queue

/-! ## Calls in order -/

/-- The argument of a call, until its critical section is over. -/
def Pc.arg : Pc ι κ → Option κ
  | .clearNext k | .setWait k | .fetchAndStore k | .link _ k | .spin k => some k
  | .critical call _ => some call
  | _ => none

/-- The arguments of the calls that some threads are in. -/
def args (s : State ι κ σ) (l : List ι) : List κ := l.filterMap fun i => (s.pc i).arg

/-- The critical section of a call, entered with the data `d`, has come to an operation. -/
inductive Works (body : κ → σ → Option (σ × Option κ)) (call : κ) (d : σ) : κ → σ → Prop
  | enter : Works body call d call d
  | work {k k' : κ} {d' d'' : σ} (h : Works body call d k d') (hb : body k d' = some (d'', some k')) :
      Works body call d k' d''

/-- The critical sections of some calls one after the other. -/
inductive Serial (body : κ → σ → Option (σ × Option κ)) (d₀ : σ) : List κ → σ → Prop
  | nil : Serial body d₀ [] d₀
  | snoc {calls : List κ} {call k : κ} {d d' d'' : σ} (h : Serial body d₀ calls d) (hw : Works body call d k d')
    (hb : body k d' = some (d'', none)) : Serial body d₀ (calls ++ [call]) d''

/-- The data are those of the critical sections in `done`, up to the one that a thread is in. -/
structure Guarded (body : κ → σ → Option (σ × Option κ)) (d₀ : σ) (s : State ι κ σ) (done : List κ) :
    Prop where
  busy : ∀ i call k, s.pc i = .critical call k → ∃ d, Serial body d₀ done d ∧ Works body call d k s.data
  free : (∀ i call k, s.pc i ≠ .critical call k) → Serial body d₀ done s.data

/-- The calls that have exchanged the tail are those done and those of the queue; the others that have
begun are those of the threads in `early`. -/
structure Counted (s : State ι κ σ) (calls order : List κ) (q early : List ι) (done : List κ) : Prop where
  inOrder : order = done ++ args s q
  nodup : early.Nodup
  mem_early : ∀ i, i ∈ early ↔ i ∉ q ∧ (s.pc i).arg ≠ none
  perm : calls.Perm (order ++ args s early)

section Calls

variable {s s' : State ι κ σ} {i : ι} {q early : List ι} {done calls order : List κ} {pc : Pc ι κ} {k : κ}
  {d₀ : σ} {body : κ → σ → Option (σ × Option κ)}

theorem pc_of_update (hpc : s'.pc = Function.update s.pc i pc) {j : ι} (hj : j ≠ i) : s'.pc j = s.pc j := by
  rw [hpc, Function.update_of_ne hj]

theorem Guarded.keep (hg : Guarded body d₀ s done) (hpc : s'.pc = Function.update s.pc i pc)
    (hdata : s'.data = s.data) (hbefore : ∀ c k, s.pc i ≠ .critical c k)
    (hafter : ∀ c k, pc ≠ .critical c k) : Guarded body d₀ s' done := by
  have hiff : ∀ j c k, s'.pc j = .critical c k ↔ s.pc j = .critical c k := by
    intro j c k
    by_cases hj : j = i
    · subst hj
      rw [hpc, Function.update_self]
      exact iff_of_false (hafter c k) (hbefore c k)
    · rw [pc_of_update hpc hj]
  refine ⟨fun j c k hj => ?_, fun hfree => ?_⟩
  · rw [hdata]
    exact hg.busy j c k ((hiff j c k).1 hj)
  · rw [hdata]
    exact hg.free fun j c k hj => hfree j c k ((hiff j c k).2 hj)

theorem Guarded.enter (hg : Guarded body d₀ s done) (hpc : s'.pc = Function.update s.pc i (.critical k k))
    (hdata : s'.data = s.data) (hfree : ∀ j c k, s.pc j ≠ .critical c k) : Guarded body d₀ s' done := by
  have hserial := hg.free hfree
  refine ⟨fun j c k' hj => ?_, fun hnone => absurd (by rw [hpc, Function.update_self]) (hnone i k k)⟩
  by_cases hji : j = i
  · subst hji
    rw [hpc, Function.update_self] at hj
    cases hj
    exact ⟨s.data, hserial, by rw [hdata]; exact .enter⟩
  · rw [pc_of_update hpc hji] at hj
    exact absurd hj (hfree j c k')

theorem Guarded.work (hg : Guarded body d₀ s done) {call k' : κ} {d : σ} (hi : s.pc i = .critical call k)
    (hexcl : ∀ j c k, s.pc j = .critical c k → j = i) (hb : body k s.data = some (d, some k')) :
    Guarded body d₀ ({ s with data := d }.goto i (.critical call k')) done := by
  obtain ⟨d', hserial, hwork⟩ := hg.busy i call k hi
  refine ⟨fun j c k'' hj => ?_, fun hnone => absurd (Function.update_self ..) (hnone i call k')⟩
  by_cases hji : j = i
  · subst hji
    rw [goto_pc, Function.update_self] at hj
    cases hj
    exact ⟨d', hserial, hwork.work hb⟩
  · rw [goto_pc, Function.update_of_ne hji] at hj
    exact absurd (hexcl j c k'' hj) hji

theorem Guarded.leave (hg : Guarded body d₀ s done) {call : κ} {d : σ} (hi : s.pc i = .critical call k)
    (hexcl : ∀ j c k, s.pc j = .critical c k → j = i) (hb : body k s.data = some (d, none)) :
    Guarded body d₀ ({ s with data := d }.goto i .readNext) (done ++ [call]) := by
  obtain ⟨d', hserial, hwork⟩ := hg.busy i call k hi
  refine ⟨fun j c k'' hj => ?_, fun _ => hserial.snoc hwork hb⟩
  by_cases hji : j = i
  · subst hji
    rw [goto_pc, Function.update_self] at hj
    cases hj
  · rw [goto_pc, Function.update_of_ne hji] at hj
    exact absurd (hexcl j c k'' hj) hji

omit [DecidableEq ι] in
theorem args_congr {l : List ι} (h : ∀ j ∈ l, (s'.pc j).arg = (s.pc j).arg) : args s' l = args s l :=
  List.filterMap_congr h

theorem arg_of_update (hpc : s'.pc = Function.update s.pc i pc) (harg : pc.arg = (s.pc i).arg) (j : ι) :
    (s'.pc j).arg = (s.pc j).arg := by
  by_cases hj : j = i
  · subst hj
    rw [hpc, Function.update_self, harg]
  · rw [pc_of_update hpc hj]

theorem args_of_notMem {l : List ι} (hpc : s'.pc = Function.update s.pc i pc) (hi : i ∉ l) : args s' l = args s l :=
  args_congr fun j hj => by rw [pc_of_update hpc fun he => hi (he ▸ hj)]

theorem Counted.keep (hc : Counted s calls order q early done) (hpc : s'.pc = Function.update s.pc i pc)
    (harg : pc.arg = (s.pc i).arg) : Counted s' calls order q early done := by
  have hargs : ∀ l : List ι, args s' l = args s l := fun l => args_congr fun j _ => arg_of_update hpc harg j
  refine ⟨by rw [hargs]; exact hc.inOrder, hc.nodup, fun j => ?_, by rw [hargs]; exact hc.perm⟩
  rw [arg_of_update hpc harg]
  exact hc.mem_early j

/-- A call begins. -/
theorem Counted.call (hc : Counted s calls order q early done) (hi : (s.pc i).arg = none) (hq : i ∉ q)
    (hpc : s'.pc = Function.update s.pc i (.clearNext k)) : Counted s' (calls ++ [k]) order q (i :: early) done := by
  have hearly : i ∉ early := fun h => ((hc.mem_early i).1 h).2 hi
  refine ⟨by rw [args_of_notMem hpc hq]; exact hc.inOrder, List.nodup_cons.2 ⟨hearly, hc.nodup⟩,
    fun j => ?_, ?_⟩
  · by_cases hj : j = i
    · subst hj
      rw [hpc, Function.update_self]
      exact iff_of_true (List.mem_cons_self ..) ⟨hq, by simp [Pc.arg]⟩
    · rw [List.mem_cons, or_iff_right hj, pc_of_update hpc hj]
      exact hc.mem_early j
  · have hcons : args s' (i :: early) = k :: args s early := by
      rw [← args_of_notMem hpc hearly]
      simp [args, hpc, Pc.arg]
    rw [hcons]
    exact (hc.perm.append_right [k]).trans (by rw [List.append_assoc]; exact List.perm_append_comm.append_left order)

/-- A thread exchanges the tail. -/
theorem Counted.exchange (hc : Counted s calls order q early done) (hq : i ∉ q) (hi : (s.pc i).arg = some k)
    (hpc : s'.pc = Function.update s.pc i pc) (harg : pc.arg = some k) :
    Counted s' calls (order ++ [k]) (q ++ [i]) (early.erase i) done := by
  have hmem : i ∈ early := (hc.mem_early i).2 ⟨hq, by simp [hi]⟩
  have hargs : ∀ l : List ι, args s' l = args s l :=
    fun l => args_congr fun j _ => arg_of_update hpc (harg.trans hi.symm) j
  refine ⟨?_, hc.nodup.erase i, fun j => ?_, ?_⟩
  · have hsnoc : args s (q ++ [i]) = args s q ++ [k] := by simp [args, hi]
    rw [hargs, hsnoc, ← List.append_assoc, ← hc.inOrder]
  · rw [hc.nodup.mem_erase_iff, hc.mem_early, arg_of_update hpc (harg.trans hi.symm), List.mem_append,
      List.mem_singleton]
    tauto
  · have hcons : (args s early).Perm (k :: args s (early.erase i)) := by
      have hhead : args s (i :: early.erase i) = k :: args s (early.erase i) := List.filterMap_cons_some hi
      rw [← hhead]
      exact (List.perm_cons_erase hmem).filterMap _
    rw [hargs, List.append_assoc]
    exact hc.perm.trans (hcons.append_left order)

/-- A critical section is over. -/
theorem Counted.finish (hc : Counted s calls order (i :: q) early done) (hq : i ∉ q) (hi : (s.pc i).arg = some k)
    (hpc : s'.pc = Function.update s.pc i pc) (harg : pc.arg = none) :
    Counted s' calls order (i :: q) early (done ++ [k]) := by
  have hnot : i ∉ early := fun h => ((hc.mem_early i).1 h).1 (List.mem_cons_self ..)
  refine ⟨?_, hc.nodup, fun j => ?_, by rw [args_of_notMem hpc hnot]; exact hc.perm⟩
  · have hcons : args s (i :: q) = k :: args s q := List.filterMap_cons_some hi
    have hcons' : args s' (i :: q) = args s' q := List.filterMap_cons_none (by rw [hpc, Function.update_self, harg])
    rw [hc.inOrder, hcons, hcons', args_of_notMem hpc hq, List.append_assoc]
    rfl
  · by_cases hj : j = i
    · subst hj
      exact iff_of_false hnot fun h => h.1 (List.mem_cons_self ..)
    · rw [pc_of_update hpc hj]
      exact hc.mem_early j

/-- The first thread leaves the queue. -/
theorem Counted.leave (hc : Counted s calls order (i :: q) early done) (hq : i ∉ q) (hi : (s.pc i).arg = none)
    (hpc : s'.pc = Function.update s.pc i .outside) : Counted s' calls order q early done := by
  have hnot : i ∉ early := fun h => ((hc.mem_early i).1 h).1 (List.mem_cons_self ..)
  refine ⟨?_, hc.nodup, fun j => ?_, by rw [args_of_notMem hpc hnot]; exact hc.perm⟩
  · have hcons : args s (i :: q) = args s q := List.filterMap_cons_none hi
    rw [hc.inOrder, hcons, args_of_notMem hpc hq]
  · by_cases hj : j = i
    · subst hj
      rw [hpc, Function.update_self]
      exact iff_of_false hnot fun h => h.2 rfl
    · rw [hc.mem_early, pc_of_update hpc hj, List.mem_cons, not_or]
      exact ⟨fun h => ⟨h.1.2, h.2⟩, fun h => ⟨⟨hj, h.1⟩, h.2⟩⟩

end Calls

/-! ## Every reached state -/

/-- What holds in every reached state, of the queue, the calls still before it and those done. -/
structure Served (body : κ → σ → Option (σ × Option κ)) (d₀ : σ) (s : State ι κ σ)
    (calls order : List κ) (q early : List ι) (done : List κ) : Prop where
  queue : Queue s q
  counted : Counted s calls order q early done
  guarded : Guarded body d₀ s done

section Served

variable {s s' : State ι κ σ} {i : ι} {q early : List ι} {done calls order : List κ} {k : κ} {d₀ : σ}
  {body : κ → σ → Option (σ × Option κ)}

omit [DecidableEq ι] in
theorem served_init (body : κ → σ → Option (σ × Option κ)) (node : ι → LockNode ι) (d₀ : σ) :
    Served body d₀ (init node d₀ : State ι κ σ) [] [] [] [] [] where
  queue := ⟨rfl, List.nodup_nil, nofun, trivial, fun _ _ => trivial⟩
  counted := ⟨rfl, List.nodup_nil, fun _ => iff_of_false List.not_mem_nil fun h => h.2 rfl, List.Perm.refl _⟩
  guarded := ⟨nofun, fun _ => .nil⟩

theorem Served.call (hs : Served body d₀ s calls order q early done) (hi : s.pc i = .outside) :
    Served body d₀ (s.goto i (.clearNext k)) (calls ++ [k]) order q (i :: early) done := by
  obtain ⟨hnot, -⟩ := hs.queue.of_early (i := i) (by simp [Owner, hi]) (by simp [Behind, hi])
  refine ⟨?_, hs.counted.call (by rw [hi]; rfl) hnot rfl, hs.guarded.keep rfl rfl (by simp [hi]) (by simp)⟩
  refine hs.queue.keep rfl (fun j hj => ⟨Function.update_of_ne hj _ _, rfl⟩) (fun _ => rfl)
    (fun _ => by simp [Early]) (fun q' h => absurd (h ▸ List.mem_cons_self ..) hnot)
    fun h => hnot (List.mem_of_mem_tail h)

/-- An operation outside the critical section that leaves the queue as it is. -/
theorem Served.keep (hs : Served body d₀ s calls order q early done) (hqueue : Queue s' q) {pc : Pc ι κ}
    (hpc : s'.pc = Function.update s.pc i pc) (hdata : s'.data = s.data) (harg : pc.arg = (s.pc i).arg)
    (hbefore : ∀ c k, s.pc i ≠ .critical c k) (hafter : ∀ c k, pc ≠ .critical c k) :
    Served body d₀ s' calls order q early done :=
  ⟨hqueue, hs.counted.keep hpc harg, hs.guarded.keep hpc hdata hbefore hafter⟩

theorem Served.step (hs : Served body d₀ s calls order q early done) (hstep : McsLock.step body s i = some s') :
    ∃ early' done', Served body d₀ s' calls (order ++ exchanged s i) (nextQueue s i q) early' done' := by
  have hq := hs.queue
  have hqueue := hq.step hstep
  unfold McsLock.step at hstep
  unfold exchanged
  unfold nextQueue at hqueue ⊢
  cases hpc : s.pc i with
  | outside =>
    rw [hpc] at hstep
    cases hstep
    rw [List.append_nil]
    exact ⟨early, done, hs⟩
  | clearNext k =>
    rw [hpc] at hstep hqueue
    cases hstep
    rw [List.append_nil]
    exact ⟨early, done, hs.keep hqueue rfl rfl (by rw [hpc]; rfl) (by simp [hpc]) nofun⟩
  | setWait k =>
    rw [hpc] at hstep hqueue
    cases hstep
    rw [List.append_nil]
    exact ⟨early, done, hs.keep hqueue rfl rfl (by rw [hpc]; rfl) (by simp [hpc]) nofun⟩
  | fetchAndStore k =>
    obtain ⟨hi, -⟩ := hq.of_early (i := i) (by simp [Owner, hpc]) (by simp [Behind, hpc])
    have harg : (s.pc i).arg = some k := by rw [hpc]; rfl
    simp only [hpc] at hstep hqueue
    refine ⟨early.erase i, done, ?_⟩
    cases hlast : s.tail with
    | none =>
      rw [hlast] at hstep
      cases hstep
      refine ⟨hqueue, hs.counted.exchange hi harg rfl rfl, hs.guarded.enter rfl rfl fun j c k hj => ?_⟩
      have hfirst := hq.first_of_critical hj
      rw [List.getLast?_eq_none_iff.1 (hq.tail.symm.trans hlast)] at hfirst
      cases hfirst
    | some pre =>
      rw [hlast] at hstep
      cases hstep
      exact ⟨hqueue, hs.counted.exchange hi harg rfl rfl, hs.guarded.keep rfl rfl (by simp [hpc]) nofun⟩
  | link pre k =>
    rw [hpc] at hstep hqueue
    cases hstep
    rw [List.append_nil]
    exact ⟨early, done, hs.keep hqueue rfl rfl (by rw [hpc]; rfl) (by simp [hpc]) nofun⟩
  | spin k =>
    simp only [hpc] at hstep hqueue
    rw [List.append_nil]
    split at hstep
    · cases hstep
      exact ⟨early, done, hs⟩
    · rename_i hwait
      cases hstep
      obtain ⟨q', hfirst, -⟩ := hq.of_owner (i := i) (by simp [Early, hpc]) (by simp [Behind, hwait])
      refine ⟨early, done, hqueue, hs.counted.keep rfl (by rw [hpc]; rfl),
        hs.guarded.enter rfl rfl fun j c k' hj => ?_⟩
      have hj' := hq.first_of_critical hj
      rw [hfirst] at hj'
      obtain rfl : i = j := Option.some.inj hj'
      rw [hpc] at hj
      cases hj
  | critical call k =>
    simp only [hpc, Option.bind_eq_bind, Option.bind_eq_some_iff] at hstep hqueue
    obtain ⟨⟨data, next⟩, hbody, hstep⟩ := hstep
    obtain ⟨q', rfl, -⟩ := hq.of_owner (i := i) (by simp [Early, hpc]) (by simp [Behind, hpc])
    have hexcl : ∀ j c k, s.pc j = .critical c k → j = i := fun j c k hj => hq.exclusive hj hpc
    rw [List.append_nil]
    cases next with
    | none =>
      cases hstep
      refine ⟨early, done ++ [call], hqueue, ?_, hs.guarded.leave hpc hexcl hbody⟩
      exact hs.counted.finish (hq.tail_nodup rfl).1 (by rw [hpc]; rfl) rfl rfl
    | some k' =>
      cases hstep
      exact ⟨early, done, hqueue, hs.counted.keep rfl (by rw [hpc]; rfl), hs.guarded.work hpc hexcl hbody⟩
  | readNext =>
    simp only [hpc] at hstep hqueue
    rw [List.append_nil]
    split at hstep <;> cases hstep
    · exact ⟨early, done, hs.keep hqueue rfl rfl (by rw [hpc]; rfl) (by simp [hpc]) nofun⟩
    · exact ⟨early, done, hs.keep hqueue rfl rfl (by rw [hpc]; rfl) (by simp [hpc]) nofun⟩
  | compareAndStore =>
    simp only [hpc] at hstep hqueue
    rw [List.append_nil]
    split at hstep <;> rename_i htail <;> cases hstep
    · obtain ⟨q', rfl, -⟩ := hq.of_owner (i := i) (by simp [Early, hpc]) (by simp [Behind, hpc])
      obtain rfl : q' = [] := hq.eq_nil_of_tail htail
      rw [if_pos htail] at hqueue
      simp only [if_pos htail]
      exact ⟨early, done, hqueue, hs.counted.leave List.not_mem_nil (by rw [hpc]; rfl) rfl,
        hs.guarded.keep rfl rfl (by simp [hpc]) nofun⟩
    · rw [if_neg htail] at hqueue
      simp only [if_neg htail]
      exact ⟨early, done, hs.keep hqueue rfl rfl (by rw [hpc]; rfl) (by simp [hpc]) nofun⟩
  | awaitNext =>
    simp only [hpc] at hstep hqueue
    rw [List.append_nil]
    split at hstep <;> cases hstep
    · exact ⟨early, done, hs⟩
    · exact ⟨early, done, hs.keep hqueue rfl rfl (by rw [hpc]; rfl) (by simp [hpc]) nofun⟩
  | loadNext =>
    simp only [hpc, Option.map_eq_some_iff] at hstep hqueue
    obtain ⟨j, hnext, rfl⟩ := hstep
    rw [List.append_nil]
    exact ⟨early, done, hs.keep hqueue rfl rfl (by rw [hpc]; rfl) (by simp [hpc]) nofun⟩
  | grant j =>
    rw [hpc] at hstep hqueue
    cases hstep
    obtain ⟨q', rfl, -⟩ := hq.of_owner (i := i) (by simp [Early, hpc]) (by simp [Behind, hpc])
    rw [List.append_nil]
    exact ⟨early, done, hqueue, hs.counted.leave (hq.tail_nodup rfl).1 (by rw [hpc]; rfl) rfl,
      hs.guarded.keep rfl rfl (by simp [hpc]) nofun⟩

theorem Reached.served {node : ι → LockNode ι} (h : Reached body (init node d₀) calls order s) :
    ∃ q early done, Served body d₀ s calls order q early done := by
  induction h with
  | start => exact ⟨[], [], [], served_init body node d₀⟩
  | call k _ hi ih =>
    obtain ⟨q, early, done, hs⟩ := ih
    exact ⟨q, _, done, hs.call hi⟩
  | step _ hstep ih =>
    obtain ⟨q, early, done, hs⟩ := ih
    obtain ⟨early', done', hs'⟩ := hs.step hstep
    exact ⟨_, early', done', hs'⟩

/-- An operation of `i` moves no other thread. -/
theorem step_pc (hstep : McsLock.step body s i = some s') : ∃ pc, s'.pc = Function.update s.pc i pc := by
  unfold McsLock.step at hstep
  have hsame : ∃ pc, s.pc = Function.update s.pc i pc := ⟨s.pc i, (Function.update_eq_self i s.pc).symm⟩
  cases hpc : s.pc i <;> simp only [hpc] at hstep
  case outside => cases hstep; exact hsame
  case fetchAndStore => split at hstep <;> cases hstep <;> exact ⟨_, rfl⟩
  case spin => split at hstep <;> cases hstep <;> first | exact hsame | exact ⟨_, rfl⟩
  case critical =>
    simp only [Option.bind_eq_bind, Option.bind_eq_some_iff] at hstep
    obtain ⟨⟨data, next⟩, -, hstep⟩ := hstep
    cases next <;> cases hstep <;> exact ⟨_, rfl⟩
  case readNext => split at hstep <;> cases hstep <;> exact ⟨_, rfl⟩
  case compareAndStore => split at hstep <;> cases hstep <;> exact ⟨_, rfl⟩
  case awaitNext => split at hstep <;> cases hstep <;> first | exact hsame | exact ⟨_, rfl⟩
  case loadNext =>
    obtain ⟨j, -, rfl⟩ := Option.map_eq_some_iff.1 hstep
    exact ⟨_, rfl⟩
  all_goals cases hstep; exact ⟨_, rfl⟩

/-- No operation of the lock goes through a null pointer. -/
theorem Queue.of_step_none (hq : Queue s q) (hstep : McsLock.step body s i = none) :
    ∃ call k, s.pc i = .critical call k ∧ body k s.data = none := by
  unfold McsLock.step at hstep
  cases hpc : s.pc i <;> simp only [hpc] at hstep
  case fetchAndStore => split at hstep <;> cases hstep
  case spin => split at hstep <;> cases hstep
  case critical call k =>
    refine ⟨call, k, rfl, ?_⟩
    simp only [Option.bind_eq_bind, Option.bind_eq_none_iff] at hstep
    cases hbody : body k s.data with
    | none => rfl
    | some r =>
      obtain ⟨data, next⟩ := r
      have hnone := hstep _ hbody
      cases next <;> cases hnone
  case readNext => split at hstep <;> cases hstep
  case compareAndStore => split at hstep <;> cases hstep
  case awaitNext => split at hstep <;> cases hstep
  case loadNext =>
    obtain ⟨q', -, ho⟩ := hq.of_owner (i := i) (by simp [Early, hpc]) (by simp [Behind, hpc])
    unfold Owner at ho
    rw [hpc] at ho
    exact absurd (Option.map_eq_none_iff.1 hstep) ho
  all_goals cases hstep

/-- The call in the critical section is the first of those that have exchanged the tail and are not done. -/
theorem Served.first_waiting (hs : Served body d₀ s calls order q early done) {call : κ}
    (hi : s.pc i = .critical call k) :
    ∃ rest, args s q = call :: rest := by
  obtain ⟨q', rfl⟩ := List.head?_eq_some_iff.1 (hs.queue.first_of_critical hi)
  exact ⟨args s q', List.filterMap_cons_some (by rw [hi]; rfl)⟩

omit [DecidableEq ι] in
theorem Served.nobody (hs : Served body d₀ s calls order q early done) (hall : ∀ i, s.pc i = .outside) :
    q = [] ∧ early = [] := by
  refine ⟨?_, List.eq_nil_iff_forall_not_mem.2 fun i hi => ((hs.counted.mem_early i).1 hi).2 (by rw [hall i]; rfl)⟩
  cases q with
  | nil => rfl
  | cons h q' =>
    have ho := hs.queue.owner h rfl
    rw [Owner, hall h] at ho
    exact absurd ho id

/-- A thread stores to the nodes of threads that are in their calls, and grants the lock to one that
spins. -/
theorem Queue.in_call (hq : Queue s q) : (∀ pre k, s.pc i = .link pre k → s.pc pre ≠ .outside) ∧
    ∀ j, s.pc i = .grant j → ∃ k, s.pc j = .spin k := by
  refine ⟨fun pre k hi hout => ?_, fun j hi => ?_⟩
  · obtain ⟨hmem, -⟩ := hq.of_behind (i := i) (by simp [Early, hi]) (by simp [Owner, hi])
    obtain ⟨hpre, -⟩ := hq.line.link hq.nodup hmem hi
    rcases hq.cases pre with ⟨hnot, -⟩ | ⟨-, -, ho⟩ | ⟨-, p, -, -, ⟨k', hlink, -⟩ | ⟨k', hspin, -⟩⟩
    · exact hnot hpre
    · rw [Owner, hout] at ho
      exact ho
    · rw [hout] at hlink
      cases hlink
    · rw [hout] at hspin
      cases hspin
  · obtain ⟨q', rfl, ho⟩ := hq.of_owner (i := i) (by simp [Early, hi]) (by simp [Behind, hi])
    have hnext : (s.node i).next = some j := by simpa [Owner, hi] using ho
    cases q' with
    | nil =>
      have hlast : (s.node i).next = none := hq.line
      rw [hlast] at hnext
      cases hnext
    | cons c rest =>
      obtain ⟨⟨-, ⟨k, -, hnone⟩ | ⟨k, hspin, hsome⟩⟩, -⟩ := hq.line
      · rw [hnone] at hnext
        cases hnext
      · rw [hsome] at hnext
        exact ⟨k, by rw [← Option.some.inj hnext, hspin]⟩

/-- In every state that any number of threads reach, whatever their critical sections do: at most one of
them is in a critical section; the sections run one after the other in the order in which the calls
exchanged the tail, none left out and none twice; stores go to nodes of threads that are in their
calls only; and nothing is undefined but what is so inside a critical section. -/
theorem reached_serial {node : ι → LockNode ι} (h : Reached body (init node d₀) calls order s) :
    (∀ i j c k c' k', s.pc i = .critical c k → s.pc j = .critical c' k' → i = j) ∧
    (∃ done waiting early, order = done ++ waiting ∧ calls.Perm (order ++ early) ∧
      ((∀ i c k, s.pc i ≠ .critical c k) → Serial body d₀ done s.data) ∧
      (∀ i c k, s.pc i = .critical c k → ∃ d rest, Serial body d₀ done d ∧ Works body c d k s.data ∧
        waiting = c :: rest) ∧
      ((∀ i, s.pc i = .outside) → waiting = [] ∧ early = [])) ∧
    (∀ i pre k, s.pc i = .link pre k → s.pc pre ≠ .outside) ∧
    (∀ i j, s.pc i = .grant j → ∃ k, s.pc j = .spin k) ∧
    ∀ i, McsLock.step body s i = none → ∃ c k, s.pc i = .critical c k ∧ body k s.data = none := by
  obtain ⟨q, early, done, hs⟩ := h.served
  have hq := hs.queue
  refine ⟨fun i j c k c' k' hi hj => hq.exclusive hi hj,
    ⟨done, args s q, args s early, hs.counted.inOrder, hs.counted.perm,
    hs.guarded.free, fun i c k hi => ?_, fun hall => ?_⟩, fun i => hq.in_call.1, fun i => hq.in_call.2,
    fun i => hq.of_step_none⟩
  · obtain ⟨d, hserial, hworks⟩ := hs.guarded.busy i c k hi
    obtain ⟨rest, hrest⟩ := hs.first_waiting hi
    exact ⟨d, rest, hserial, hworks, hrest⟩
  · obtain ⟨rfl, rfl⟩ := hs.nobody hall
    exact ⟨rfl, rfl⟩

/-- Two threads: the first is in its critical section, the second has exchanged the tail. -/
theorem reached_two : ∃ s : State (Fin 2) ℕ ℕ,
    Reached (fun k d => some (d + k, none)) (init (fun _ => ⟨none, false⟩) 0) [5, 7] [5, 7] s ∧
    s.pc 0 = .critical 5 5 ∧ s.pc 1 = .link 0 7 := by
  have h₀ : Reached (fun k d => some (d + k, none)) (init (fun _ : Fin 2 => ⟨none, false⟩) 0) [] [] _ := .start
  have h₁ := ((Reached.call (i := 0) 5 h₀ rfl).step (i := 0) rfl).step (i := 0) rfl
  have h₂ := h₁.step (i := 0) rfl
  have h₃ := ((Reached.call (i := 1) 7 h₂ rfl).step (i := 1) rfl).step (i := 1) rfl
  exact ⟨_, h₃.step (i := 1) rfl, rfl, rfl⟩

theorem reached_serial_two : ∃ s : State (Fin 2) ℕ ℕ, s.pc 0 = .critical 5 5 ∧ s.pc 1 = .link 0 7 ∧
    ∀ j c k, s.pc j = .critical c k → 0 = j := by
  obtain ⟨s, h, h0, h1⟩ := reached_two
  exact ⟨s, h0, h1, fun j c k hj => (reached_serial h).1 0 j 5 5 c k h0 hj⟩

/-! ## Progress -/

/-- How many operations a thread is from the end of its call, spinning apart, where an operation of the
critical section counts as its rank. -/
def cost (rank : κ → Nat) : Pc ι κ → Nat
  | .outside => 0
  | .grant _ => 1
  | .loadNext => 2
  | .awaitNext => 3
  | .compareAndStore => 4
  | .readNext => 5
  | .critical _ k => 6 + rank k
  | .spin k => 7 + rank k
  | .link _ k => 8 + rank k
  | .fetchAndStore k => 9 + rank k
  | .setWait k => 10 + rank k
  | .clearNext k => 11 + rank k

/-- The next operation of the thread leaves it where it is. -/
def Idle (s : State ι κ σ) (i : ι) : Prop :=
  match s.pc i with
  | .outside => True
  | .spin _ => (s.node i).wait = true
  | .awaitNext => (s.node i).next = none
  | _ => False

/-- A thread that is not idle gets on with its call. -/
theorem step_of_not_idle {rank : κ → Nat} (hrank : ∀ k d d' k', body k d = some (d', some k') → rank k' < rank k)
    (hi : ¬ Idle s i) : McsLock.step body s i = none ∨
      ∃ s', McsLock.step body s i = some s' ∧ cost rank (s'.pc i) < cost rank (s.pc i) := by
  unfold Idle at hi
  unfold McsLock.step
  cases hpc : s.pc i <;> simp only [hpc] at hi ⊢
  case outside => exact absurd trivial hi
  case fetchAndStore k =>
    split
    · exact .inr ⟨_, rfl, by simp [cost]⟩
    · exact .inr ⟨_, rfl, by simp [cost]⟩
  case spin k =>
    rw [if_neg hi]
    exact .inr ⟨_, rfl, by simp [cost]⟩
  case critical call k =>
    cases hbody : body k s.data with
    | none => exact .inl rfl
    | some r =>
      obtain ⟨data, next⟩ := r
      cases next with
      | none => exact .inr ⟨_, rfl, by simp [cost]; omega⟩
      | some k' => exact .inr ⟨_, rfl, by simpa [cost] using hrank k s.data data k' hbody⟩
  case readNext =>
    split
    · exact .inr ⟨_, rfl, by simp [cost]⟩
    · exact .inr ⟨_, rfl, by simp [cost]⟩
  case compareAndStore =>
    split
    · exact .inr ⟨_, rfl, by simp [cost]⟩
    · exact .inr ⟨_, rfl, by simp [cost]⟩
  case awaitNext =>
    rw [if_neg hi]
    exact .inr ⟨_, rfl, by simp [cost]⟩
  case loadNext =>
    cases (s.node i).next with
    | none => exact .inl rfl
    | some j => exact .inr ⟨_, rfl, by simp [cost]⟩
  all_goals exact .inr ⟨_, rfl, by simp [cost]⟩

omit [DecidableEq ι] in
/-- As long as some thread is in a call, some thread is not idle. -/
theorem Queue.exists_not_idle (hq : Queue s q) (hi : s.pc i ≠ .outside) : ∃ j, ¬ Idle s j := by
  cases q with
  | nil =>
    -- nobody waits
    have he := hq.early i List.not_mem_nil
    refine ⟨i, fun hidle => ?_⟩
    unfold Early at he
    unfold Idle at hidle
    cases hpc : s.pc i <;> simp only [hpc] at he hidle hi
    exact hi rfl
  | cons h q' =>
    have ho := hq.owner h rfl
    by_cases hidle : Idle s h
    · -- the owner waits for the thread behind it to link its node
      unfold Owner at ho
      unfold Idle at hidle
      have hnext : s.tail ≠ some h ∧ (s.node h).next = none := by
        cases hpc : s.pc h <;> simp only [hpc] at ho hidle
        · rw [ho] at hidle
          cases hidle
        · exact ⟨ho, hidle⟩
      cases q' with
      | nil => exact absurd hq.tail hnext.1
      | cons c rest =>
        obtain ⟨⟨-, ⟨k, hlink, -⟩ | ⟨k, -, hsome⟩⟩, -⟩ := hq.line
        · refine ⟨c, fun hidle => ?_⟩
          unfold Idle at hidle
          rw [hlink] at hidle
          exact hidle
        · rw [hnext.2] at hsome
          cases hsome
    · exact ⟨h, hidle⟩

/-- Only finitely many threads are ever in a call. -/
theorem Reached.finite {s₀ : State ι κ σ} (h₀ : ∀ i, s₀.pc i = .outside)
    (h : Reached body s₀ calls order s) :
    ∃ threads : Finset ι, ∀ i, i ∉ threads → s.pc i = .outside := by
  induction h with
  | start => exact ⟨∅, fun i _ => h₀ i⟩
  | @call _ _ _ i _ _ _ ih =>
    obtain ⟨threads, ht⟩ := ih
    refine ⟨insert i threads, fun j hj => ?_⟩
    rw [Finset.mem_insert, not_or] at hj
    rw [goto_pc, Function.update_of_ne hj.1]
    exact ht j hj.2
  | @step _ _ _ _ i _ hstep ih =>
    obtain ⟨threads, ht⟩ := ih
    obtain ⟨pc, hpc⟩ := step_pc hstep
    refine ⟨insert i threads, fun j hj => ?_⟩
    rw [Finset.mem_insert, not_or] at hj
    rw [pc_of_update hpc hj.1]
    exact ht j hj.2

/-- No deadlock: from every reached state some operations, and no more calls, lead to a state where all
calls have returned, unless one of them fails in its critical section. -/
theorem Reached.completes {node : ι → LockNode ι} {rank : κ → Nat}
    (hrank : ∀ k d d' k', body k d = some (d', some k') → rank k' < rank k)
    (h : Reached body (init node d₀) calls order s) : ∃ order' s', Reached body (init node d₀) calls order' s' ∧
      ((∀ i, s'.pc i = .outside) ∨ ∃ i, McsLock.step body s' i = none) := by
  obtain ⟨threads, ht⟩ := h.finite fun _ => rfl
  induction hn : ∑ i ∈ threads, cost rank (s.pc i) using Nat.strong_induction_on generalizing order s with
  | _ n ih =>
    by_cases hall : ∀ i, s.pc i = .outside
    · exact ⟨order, s, h, .inl hall⟩
    · obtain ⟨i, hi⟩ := not_forall.1 hall
      obtain ⟨q, early, done, hs⟩ := h.served
      obtain ⟨j, hj⟩ := hs.queue.exists_not_idle hi
      rcases step_of_not_idle hrank hj with hnone | ⟨s', hstep, hcost⟩
      · exact ⟨order, s, h, .inr ⟨j, hnone⟩⟩
      · have hmem : j ∈ threads := by
          by_contra hnot
          exact hj (by rw [Idle, ht j hnot]; trivial)
        obtain ⟨pc, hpc⟩ := step_pc hstep
        have hother : ∀ l, l ≠ j → s'.pc l = s.pc l := fun l hl => pc_of_update hpc hl
        refine ih _ ?_ (h.step hstep) (fun l hl => ?_) rfl
        · rw [← hn]
          refine Finset.sum_lt_sum (fun l _ => ?_) ⟨j, hmem, hcost⟩
          by_cases hl : l = j
          · rw [hl]
            exact hcost.le
          · rw [hother l hl]
        · rw [hother l fun he => hl (he ▸ hmem)]
          exact ht l hl

end Served

end McsLock

end Embark
