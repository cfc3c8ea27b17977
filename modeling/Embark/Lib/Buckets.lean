/-
Elements with keys, in buckets. Every element lies in the bucket that is its home, so a key is found
in one bucket; what is found does not depend on the order inside the buckets. A place in a bucket
parts the elements into those before it and those from it on, in the order of the buckets.
-/
import Mathlib.Data.List.InsertIdx
import Mathlib.Data.List.Nodup
import Mathlib.Data.List.Perm.Basic

namespace Embark

open List

/-! ## Elements with keys -/

namespace Keyed

variable {α κ : Type*} [DecidableEq κ] (key : α → κ)

/-- No two elements have one key. -/
def Distinct (l : List α) : Prop := (l.map key).Nodup

/-- The element with the key `k`. -/
def lookup (l : List α) (k : κ) : Option α := l.find? fun x => key x = k

variable {key} {l l' : List α} {x : α} {k : κ}

omit [DecidableEq κ] in
theorem Distinct.perm (h : Distinct key l) (hp : l ~ l') : Distinct key l' := (hp.map key).nodup_iff.1 h

omit [DecidableEq κ] in
theorem Distinct.of_sublist (h : Distinct key l) (hs : l' <+ l) : Distinct key l' :=
  List.Nodup.sublist (hs.map key) h

theorem key_of_lookup (h : lookup key l k = some x) : key x = k := by
  simpa using List.find?_some h

theorem mem_of_lookup (h : lookup key l k = some x) : x ∈ l := List.mem_of_find?_eq_some h

theorem lookup_eq_none_iff : lookup key l k = none ↔ ∀ x ∈ l, key x ≠ k := by
  simp [lookup]

theorem lookup_cons : lookup key (x :: l) k = if key x = k then some x else lookup key l k := by
  unfold lookup
  rw [List.find?_cons]
  by_cases h : key x = k
  · simp [h]
  · simp [h]

theorem distinct_cons : Distinct key (x :: l) ↔ lookup key l (key x) = none ∧ Distinct key l := by
  rw [Distinct, List.map_cons, List.nodup_cons, lookup_eq_none_iff]
  exact and_congr_left' ⟨fun h y hy hk => h (List.mem_map.2 ⟨y, hy, hk⟩),
    fun h hm => by obtain ⟨y, hy, hk⟩ := List.mem_map.1 hm; exact h y hy hk⟩

/-- With distinct keys, an element is found by its own key. -/
theorem lookup_eq_some_iff (h : Distinct key l) : lookup key l k = some x ↔ x ∈ l ∧ key x = k := by
  constructor
  · intro hx
    exact ⟨mem_of_lookup hx, key_of_lookup hx⟩
  · rintro ⟨hx, rfl⟩
    cases hy : lookup key l (key x) with
    | none => exact absurd rfl (lookup_eq_none_iff.1 hy x hx)
    | some y => rw [List.inj_on_of_nodup_map h (mem_of_lookup hy) hx (key_of_lookup hy)]

theorem Distinct.lookup_perm (h : Distinct key l) (hp : l ~ l') (k : κ) : lookup key l k = lookup key l' k := by
  ext x
  rw [lookup_eq_some_iff h, lookup_eq_some_iff (h.perm hp), hp.mem_iff]

end Keyed

/-! ## Buckets -/

namespace Buckets

variable {α : Type*}

/-- The bucket with number `b`. -/
def bucket (bs : List (List α)) (b : Nat) : List α := bs.getD b []

/-- Every element is at home. -/
def Placed (home : α → Nat) (bs : List (List α)) : Prop := ∀ b, ∀ x ∈ bucket bs b, home x = b

variable {bs : List (List α)} {home : α → Nat} {b : Nat} {x : α} {f : List α → List α}

theorem bucket_of_lt (h : b < bs.length) : bucket bs b = bs[b] := by
  simp [bucket, h]

theorem bucket_of_le (h : bs.length ≤ b) : bucket bs b = [] := by
  simp [bucket, h]

theorem lt_of_mem (h : x ∈ bucket bs b) : b < bs.length := by
  by_contra hb
  rw [bucket_of_le (Nat.le_of_not_lt hb)] at h
  exact List.not_mem_nil h

theorem bucket_modify (hb : b < bs.length) (f : List α → List α) (c : Nat) :
    bucket (bs.modify b f) c = if c = b then f (bucket bs b) else bucket bs c := by
  unfold bucket
  rw [List.getD_eq_getElem?_getD, List.getElem?_modify]
  split
  · rename_i h
    subst h
    simp [hb]
  · rename_i h
    simp [Ne.symm h]

theorem bucket_replicate (n : Nat) : bucket (List.replicate n ([] : List α)) b = [] := by
  unfold bucket
  rw [List.getD_eq_getElem?_getD, List.getElem?_replicate]
  split
  · rfl
  · rfl

theorem mem_flatten_iff : x ∈ bs.flatten ↔ ∃ b, x ∈ bucket bs b := by
  rw [List.mem_flatten]
  constructor
  · rintro ⟨l, hl, hx⟩
    obtain ⟨b, hb, rfl⟩ := List.mem_iff_getElem.1 hl
    exact ⟨b, by rwa [bucket_of_lt hb]⟩
  · rintro ⟨b, hx⟩
    have hb := lt_of_mem hx
    rw [bucket_of_lt hb] at hx
    exact ⟨bs[b], List.getElem_mem hb, hx⟩

theorem bucket_sublist (bs : List (List α)) (b : Nat) : bucket bs b <+ bs.flatten := by
  by_cases hb : b < bs.length
  · rw [bucket_of_lt hb]
    exact List.sublist_flatten_of_mem (List.getElem_mem hb)
  · rw [bucket_of_le (Nat.le_of_not_lt hb)]
    exact List.nil_sublist _

/-- A change to one bucket leaves the rest as it is. -/
theorem exists_flatten_modify (hb : b < bs.length) :
    ∃ rest, bs.flatten ~ bucket bs b ++ rest ∧ ∀ f, (bs.modify b f).flatten ~ f (bucket bs b) ++ rest := by
  refine ⟨(bs.eraseIdx b).flatten, ?_, fun f => ?_⟩
  · rw [bucket_of_lt hb]
    exact (List.getElem_cons_eraseIdx_perm hb).symm.flatten
  · rw [bucket_of_lt hb, List.modify_eq_set_get f hb]
    exact (List.set_perm_cons_eraseIdx hb (f bs[b])).flatten

theorem flatten_modify_of_perm (hb : b < bs.length) (hf : f (bucket bs b) ~ bucket bs b) :
    (bs.modify b f).flatten ~ bs.flatten := by
  obtain ⟨rest, hold, hnew⟩ := exists_flatten_modify hb
  exact (hnew f).trans ((hf.append_right rest).trans hold.symm)

theorem flatten_modify_of_cons (hb : b < bs.length) (hf : f (bucket bs b) ~ x :: bucket bs b) :
    (bs.modify b f).flatten ~ x :: bs.flatten := by
  obtain ⟨rest, hold, hnew⟩ := exists_flatten_modify hb
  exact (hnew f).trans ((hf.append_right rest).trans (hold.symm.cons x))

theorem Placed.modify (h : Placed home bs) (hb : b < bs.length) (hf : ∀ x ∈ f (bucket bs b), home x = b) :
    Placed home (bs.modify b f) := by
  intro c y hy
  rw [bucket_modify hb] at hy
  split at hy
  · rename_i hc
    rw [hc]
    exact hf y hy
  · exact h c y hy

theorem placed_replicate (home : α → Nat) (n : Nat) : Placed home (List.replicate n []) := by
  intro b x hx
  rw [bucket_replicate] at hx
  exact absurd hx List.not_mem_nil

/-- A key is looked up in the home of its elements only. -/
theorem Placed.lookup_eq {κ : Type*} [DecidableEq κ] {key : α → κ} {k : κ} (h : Placed home bs)
    (hd : Keyed.Distinct key bs.flatten) (hk : ∀ x, key x = k → home x = b) :
    Keyed.lookup key (bucket bs b) k = Keyed.lookup key bs.flatten k := by
  ext x
  rw [Keyed.lookup_eq_some_iff hd, Keyed.lookup_eq_some_iff (hd.of_sublist (bucket_sublist bs b)), mem_flatten_iff]
  constructor
  · rintro ⟨hx, hxk⟩
    exact ⟨⟨b, hx⟩, hxk⟩
  · rintro ⟨⟨c, hx⟩, hxk⟩
    rw [← h c x hx, hk x hxk] at hx
    exact ⟨hx, hxk⟩

/-! ## Distributing -/

/-- The elements of a list put in front of their homes, one after the other. -/
def scatter (home : α → Nat) (bs : List (List α)) (l : List α) : List (List α) :=
  l.foldl (fun bs x => bs.modify (home x) (x :: ·)) bs

theorem scatter_cons (home : α → Nat) (bs : List (List α)) (x : α) (l : List α) :
    scatter home bs (x :: l) = scatter home (bs.modify (home x) (x :: ·)) l := rfl

@[simp] theorem length_scatter (home : α → Nat) (bs : List (List α)) (l : List α) :
    (scatter home bs l).length = bs.length := by
  induction l generalizing bs with
  | nil => rfl
  | cons x l ih => rw [scatter_cons, ih, List.length_modify]

theorem Placed.scatter (h : Placed home bs) (l : List α) (hl : ∀ x ∈ l, home x < bs.length) :
    Placed home (scatter home bs l) := by
  induction l generalizing bs with
  | nil => exact h
  | cons x l ih =>
    have hx := hl x List.mem_cons_self
    rw [scatter_cons]
    apply ih
    · apply h.modify hx
      intro y hy
      rcases List.mem_cons.1 hy with rfl | hy
      · rfl
      · exact h _ y hy
    · intro y hy
      rw [List.length_modify]
      exact hl y (List.mem_cons_of_mem x hy)

theorem flatten_scatter (l : List α) (hl : ∀ x ∈ l, home x < bs.length) :
    (scatter home bs l).flatten ~ l ++ bs.flatten := by
  induction l generalizing bs with
  | nil => exact .rfl
  | cons x l ih =>
    have hx := hl x List.mem_cons_self
    have hrest : ∀ y ∈ l, home y < (bs.modify (home x) (x :: ·)).length := by
      intro y hy
      rw [List.length_modify]
      exact hl y (List.mem_cons_of_mem x hy)
    rw [scatter_cons]
    calc (scatter home (bs.modify (home x) (x :: ·)) l).flatten
        ~ l ++ (bs.modify (home x) (x :: ·)).flatten := ih hrest
      _ ~ l ++ x :: bs.flatten := (flatten_modify_of_cons hx .rfl).append_left l
      _ ~ x :: l ++ bs.flatten := List.perm_middle

/-! ## Places -/

/-- The elements before place `i` of bucket `b`. -/
def before (bs : List (List α)) (b i : Nat) : List α := (bs.take b).flatten ++ (bucket bs b).take i

/-- The elements from place `i` of bucket `b` on. -/
def ahead (bs : List (List α)) (b i : Nat) : List α := (bucket bs b).drop i ++ (bs.drop (b + 1)).flatten

theorem flatten_drop (bs : List (List α)) (b : Nat) :
    (bs.drop b).flatten = bucket bs b ++ (bs.drop (b + 1)).flatten := by
  by_cases hb : b < bs.length
  · rw [List.drop_eq_getElem_cons hb, List.flatten_cons, bucket_of_lt hb]
  · rw [bucket_of_le (Nat.le_of_not_lt hb), List.drop_eq_nil_of_le (Nat.le_of_not_lt hb),
      List.drop_eq_nil_of_le (by omega)]
    rfl

theorem flatten_take_succ (bs : List (List α)) (b : Nat) :
    (bs.take (b + 1)).flatten = (bs.take b).flatten ++ bucket bs b := by
  rw [List.take_add_one, List.flatten_append, bucket, List.getD_eq_getElem?_getD]
  cases bs[b]? with
  | none => simp
  | some l => simp

theorem before_append_ahead (bs : List (List α)) (b i : Nat) : before bs b i ++ ahead bs b i = bs.flatten := by
  unfold before ahead
  rw [List.append_assoc, ← List.append_assoc (List.take i _), List.take_append_drop, ← flatten_drop,
    ← List.flatten_append, List.take_append_drop]

theorem ahead_zero (bs : List (List α)) (b : Nat) : ahead bs b 0 = (bs.drop b).flatten := by
  rw [flatten_drop, ahead, List.drop_zero]

theorem before_zero (bs : List (List α)) (b : Nat) : before bs b 0 = (bs.take b).flatten := by
  rw [before, List.take_zero, List.append_nil]

/-- Behind the last element of a bucket stands the next bucket. -/
theorem ahead_of_le {i : Nat} (h : (bucket bs b).length ≤ i) : ahead bs b i = ahead bs (b + 1) 0 := by
  rw [ahead_zero, ahead, List.drop_eq_nil_of_le h, List.nil_append]

theorem before_of_le {i : Nat} (h : (bucket bs b).length ≤ i) : before bs b i = before bs (b + 1) 0 := by
  rw [before_zero, flatten_take_succ, before, List.take_of_length_le h]

theorem ahead_eq_cons {i : Nat} (h : i < (bucket bs b).length) :
    ahead bs b i = (bucket bs b)[i] :: ahead bs b (i + 1) := by
  rw [ahead, List.drop_eq_getElem_cons h, List.cons_append, ahead]

theorem before_succ {i : Nat} (h : i < (bucket bs b).length) :
    before bs b (i + 1) = before bs b i ++ [(bucket bs b)[i]] := by
  rw [before, ← List.take_append_getElem h, ← List.append_assoc, before]

theorem flatten_take_of_empty {c : Nat} (h : ∀ a < c, bucket bs a = []) : (bs.take c).flatten = [] := by
  induction c with
  | zero => rfl
  | succ c ih => rw [flatten_take_succ, ih fun a ha => h a (by omega), h c (by omega), List.append_nil]

theorem bucket_of_flatten_take {c : Nat} (h : (bs.take c).flatten = []) (hb : b < c) : bucket bs b = [] := by
  by_cases hlt : b < bs.length
  · rw [bucket_of_lt hlt]
    exact List.flatten_eq_nil_iff.1 h _ (List.mem_take_iff_getElem.2 ⟨b, by omega, rfl⟩)
  · exact bucket_of_le (Nat.le_of_not_lt hlt)

/-- Empty buckets lie between two places. -/
theorem ahead_of_empty {c : Nat} (hbc : b ≤ c) (h : ∀ a, b ≤ a → a < c → bucket bs a = []) :
    ahead bs b 0 = ahead bs c 0 := by
  induction hbc with
  | refl => rfl
  | @step c hbc ih =>
    have hc := h c hbc (Nat.lt_succ_self c)
    rw [ih fun a h1 h2 => h a h1 (Nat.lt_succ_of_lt h2), ahead_of_le (by simp [hc])]

theorem before_of_empty {c : Nat} (hbc : b ≤ c) (h : ∀ a, b ≤ a → a < c → bucket bs a = []) :
    before bs b 0 = before bs c 0 := by
  induction hbc with
  | refl => rfl
  | @step c hbc ih =>
    have hc := h c hbc (Nat.lt_succ_self c)
    rw [ih fun a h1 h2 => h a h1 (Nat.lt_succ_of_lt h2), before_of_le (by simp [hc])]

theorem ahead_length (bs : List (List α)) (i : Nat) : ahead bs bs.length i = [] := by
  rw [ahead, bucket_of_le (Nat.le_refl _), List.drop_nil, List.nil_append, List.drop_eq_nil_of_le (Nat.le_succ _)]
  rfl

theorem drop_eraseIdx {l : List α} {i : Nat} (hi : i < l.length) : (l.eraseIdx i).drop i = l.drop (i + 1) := by
  rw [List.eraseIdx_eq_take_drop_succ, List.drop_left' (List.length_take_of_le (Nat.le_of_lt hi))]

/-- A change behind a place keeps what is before it. -/
theorem before_modify (hb : b < bs.length) {i : Nat} (hf : (f (bucket bs b)).take i = (bucket bs b).take i) :
    before (bs.modify b f) b i = before bs b i := by
  unfold before
  rw [bucket_modify hb, if_pos rfl, hf, List.take_modify, List.modify_eq_self (by rw [List.length_take]; omega)]

/-- A change to a bucket keeps what is behind the bucket. -/
theorem ahead_modify (hb : b < bs.length) (i : Nat) :
    ahead (bs.modify b f) b i = (f (bucket bs b)).drop i ++ (bs.drop (b + 1)).flatten := by
  unfold ahead
  rw [bucket_modify hb, if_pos rfl, List.drop_modify_of_lt _ _ _ _ (Nat.lt_succ_self b)]

end Buckets

end Embark
