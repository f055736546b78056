import Mathlib.Data.List.Basic
import Mathlib.Data.List.Nodup

/-!
# A bounded recency list

Values under keys, the most recently used first, and no more of them than the
capacity: storing a new key in a full list drops the last one. Beside the list
stands the history of what happened to the keys. `Faithful` says what the list
is in terms of the history: a key is held when it was stored and not removed
since, with the value stored last, and the keys are in the order of their last
uses.
-/

namespace Lib

/-- What can happen to a key; using it includes storing it. -/
inductive Event (κ β : Type) where
  | used (key : κ)
  | stored (key : κ) (value : β)
  | removed (key : κ)

structure Recency (κ β : Type) where
  capacity : Nat
  entries : List (κ × β)
  /-- The latest event first. -/
  history : List (Event κ β)

namespace Recency

variable {κ β : Type} [DecidableEq κ]

def empty (capacity : Nat) : Recency κ β := ⟨capacity, [], []⟩

/-- The value under a key. -/
def find (entries : List (κ × β)) (key : κ) : Option β :=
  (entries.find? (·.1 = key)).map (·.2)

def lookup (s : Recency κ β) (key : κ) : Option β := find s.entries key

/-- A key to the front, with its value. -/
def promote (s : Recency κ β) (key : κ) (value : β) : List (κ × β) :=
  (key, value) :: s.entries.filter (·.1 ≠ key)

def get (s : Recency κ β) (key : κ) : Recency κ β × Option β :=
  match s.lookup key with
  | none => (s, none)
  | some value =>
      ({ s with entries := s.promote key value, history := .used key :: s.history }, some value)

/-- Room for one more: the last key goes if the list is full. -/
def evict (s : Recency κ β) : Recency κ β :=
  if s.capacity ≤ s.entries.length then
    { s with
      entries := s.entries.dropLast
      history := (s.entries.getLast?.map fun e => .removed e.1).toList ++ s.history }
  else s

def put (s : Recency κ β) (key : κ) (value : β) : Recency κ β :=
  if (s.lookup key).isSome then
    { s with entries := s.promote key value, history := .stored key value :: s.history }
  else
    { s.evict with
      entries := (key, value) :: s.evict.entries
      history := .stored key value :: s.evict.history }

def removeWhere (s : Recency κ β) (p : κ → Bool) : Recency κ β :=
  { s with
    entries := s.entries.filter fun e => !p e.1
    history := (s.entries.filter fun e => p e.1).map (fun e => .removed e.1) ++ s.history }

/-! ## What a history says -/

/-- The value stored last, if the key was not removed since. -/
def current : List (Event κ β) → κ → Option β
  | [], _ => none
  | .used _ :: h, key => current h key
  | .stored k value :: h, key => if k = key then some value else current h key
  | .removed k :: h, key => if k = key then none else current h key

/-- When a key was last used; `0` if it never was. -/
def lastUse : List (Event κ β) → κ → Nat
  | [], _ => 0
  | .used k :: h, key | .stored k _ :: h, key => if k = key then h.length + 1 else lastUse h key
  | .removed _ :: h, key => lastUse h key

theorem lastUse_le (h : List (Event κ β)) (key : κ) : lastUse h key ≤ h.length := by
  induction h with
  | nil => exact Nat.le_refl 0
  | cons e h ih =>
      cases e with
      | used k | stored k v =>
          rw [lastUse, List.length_cons]
          split <;> omega
      | removed k => exact Nat.le_succ_of_le ih

theorem lastUse_removed (keys : List κ) (h : List (Event κ β)) (key : κ) :
    lastUse (keys.map .removed ++ h) key = lastUse h key := by
  induction keys with
  | nil => rfl
  | cons k keys ih => exact ih

theorem current_removed (keys : List κ) (h : List (Event κ β)) (key : κ) :
    current (keys.map .removed ++ h) key = if key ∈ keys then none else current h key := by
  induction keys with
  | nil => simp
  | cons k keys ih =>
      rw [List.map_cons, List.cons_append, current, ih]
      by_cases hk : k = key
      · simp [hk]
      · have hk' : ¬ key = k := fun h => hk h.symm
        simp [hk, hk']

/-! ## Finding keys -/

theorem find_cons (e : κ × β) (l : List (κ × β)) (key : κ) :
    find (e :: l) key = if e.1 = key then some e.2 else find l key := by
  by_cases h : e.1 = key <;> simp [find, h]

theorem find_eq_none {l : List (κ × β)} {key : κ} :
    find l key = none ↔ key ∉ l.map (·.1) := by
  induction l with
  | nil => simp [find]
  | cons e l ih =>
      rw [find_cons, List.map_cons, List.mem_cons, not_or, ← ih]
      by_cases h : e.1 = key
      · simp [h]
      · have h' : ¬ key = e.1 := fun hk => h hk.symm
        simp [h, h']

theorem find_eq_some {l : List (κ × β)} (hnd : (l.map (·.1)).Nodup) {e : κ × β} (he : e ∈ l) :
    find l e.1 = some e.2 := by
  induction l with
  | nil => exact absurd he (by simp)
  | cons a l ih =>
      rw [List.map_cons, List.nodup_cons] at hnd
      rw [find_cons]
      rcases List.mem_cons.mp he with rfl | he
      · rw [if_pos rfl]
      · have hne : a.1 ≠ e.1 := fun h => hnd.1 (h ▸ List.mem_map_of_mem he)
        rw [if_neg hne, ih hnd.2 he]

theorem find_filter (l : List (κ × β)) (p : κ → Bool) (key : κ) :
    find (l.filter fun e => p e.1) key = if p key then find l key else none := by
  induction l with
  | nil => simp [find]
  | cons e l ih =>
      rw [find_cons, List.filter_cons]
      by_cases he : e.1 = key
      · subst he
        by_cases hp : p e.1
        · simp [hp, find_cons]
        · simp [hp, ih]
      · by_cases hp : p e.1
        · simp [hp, he, find_cons, ih]
        · simp [hp, he, ih]

/-- In a list without its last entry only that entry's key is missing. -/
theorem find_dropLast {l : List (κ × β)} {e : κ × β} (hnd : (l.map (·.1)).Nodup)
    (hlast : l.getLast? = some e) (key : κ) :
    find l.dropLast key = if e.1 = key then none else find l key := by
  induction l with
  | nil => exact absurd hlast (by simp)
  | cons a l ih =>
      cases l with
      | nil =>
          obtain rfl : a = e := by simpa using hlast
          by_cases h : a.1 = key <;> simp [find, h]
      | cons b l =>
          have hlast' : (b :: l).getLast? = some e := by
            rwa [List.getLast?_cons_cons] at hlast
          rw [List.map_cons, List.nodup_cons] at hnd
          rw [List.dropLast_cons_cons, find_cons, find_cons, ih hnd.2 hlast']
          by_cases ha : a.1 = key
          · have he : e ∈ b :: l := List.mem_of_getLast? hlast'
            have hne : e.1 ≠ key := fun h => hnd.1 (by
              rw [ha, ← h]
              exact List.mem_map_of_mem he)
            simp [ha, hne]
          · simp [ha]

/-! ## The list against the history -/

/-- The list is what the history says. -/
structure Faithful (s : Recency κ β) : Prop where
  nodup : (s.entries.map (·.1)).Nodup
  bound : s.entries.length ≤ s.capacity
  held : ∀ key, current s.history key = s.lookup key
  recent : s.entries.Pairwise fun a b => lastUse s.history b.1 < lastUse s.history a.1

theorem faithful_empty (capacity : Nat) : Faithful (empty capacity : Recency κ β) :=
  ⟨List.nodup_nil, Nat.zero_le _, fun _ => rfl, List.Pairwise.nil⟩

variable {s : Recency κ β} {key : κ} {value : β}

theorem Faithful.nodup_promote (h : s.Faithful) (key : κ) (value : β) :
    ((s.promote key value).map (·.1)).Nodup := by
  rw [promote, List.map_cons, List.nodup_cons]
  refine ⟨by simp, ?_⟩
  exact h.nodup.sublist (List.filter_sublist.map _)

/-- Using a key puts it before all others. -/
theorem Faithful.recent_cons {l : List (κ × β)} {e : Event κ β}
    (he : ∀ k, lastUse (e :: s.history) k =
      if key = k then s.history.length + 1 else lastUse s.history k)
    (hkey : key ∉ l.map (·.1))
    (hl : l.Pairwise fun a b => lastUse s.history b.1 < lastUse s.history a.1) :
    ((key, value) :: l).Pairwise fun a b =>
      lastUse (e :: s.history) b.1 < lastUse (e :: s.history) a.1 := by
  have hne : ∀ a ∈ l, key ≠ a.1 := fun a ha h => hkey (by
    rw [h]
    exact List.mem_map_of_mem ha)
  rw [List.pairwise_cons]
  constructor
  · intro a ha
    rw [he, he, if_neg (hne a ha), if_pos rfl]
    exact Nat.lt_succ_of_le (lastUse_le _ _)
  · refine hl.imp_of_mem fun {a b} ha hb hab => ?_
    rw [he, he, if_neg (hne a ha), if_neg (hne b hb)]
    exact hab

theorem Faithful.promote {e : Event κ β} (h : s.Faithful) (hmem : (s.lookup key).isSome)
    (hcur : ∀ k, current (e :: s.history) k = if key = k then some value else s.lookup k)
    (he : ∀ k, lastUse (e :: s.history) k =
      if key = k then s.history.length + 1 else lastUse s.history k) :
    Faithful { s with entries := s.promote key value, history := e :: s.history } := by
  refine ⟨h.nodup_promote key value, ?_, fun k => ?_, ?_⟩
  · -- the key leaves its old place
    have hin : key ∈ s.entries.map (·.1) := by
      by_contra hout
      rw [Recency.lookup, find_eq_none.mpr hout] at hmem
      exact absurd hmem (by simp)
    obtain ⟨a, ha, hak⟩ := List.mem_map.mp hin
    have hlt : (s.entries.filter (·.1 ≠ key)).length < s.entries.length :=
      List.length_filter_lt_length_iff_exists.mpr ⟨a, ha, by simp [hak]⟩
    have := h.bound
    simp only [Recency.promote, List.length_cons]
    omega
  · change current (e :: s.history) k = find ((key, value) :: s.entries.filter _) k
    have hf := find_filter s.entries (fun x => decide (x ≠ key)) k
    rw [hcur, find_cons, hf]
    by_cases hk : key = k
    · simp [hk]
    · have hk' : ¬ k = key := fun h => hk h.symm
      simp [hk, hk', Recency.lookup]
  · exact Faithful.recent_cons he (by simp) (h.recent.sublist List.filter_sublist)

theorem Faithful.get (h : s.Faithful) (key : κ) : (s.get key).1.Faithful := by
  rw [Recency.get]
  cases hv : s.lookup key with
  | none => exact h
  | some value =>
      refine h.promote (by simp [hv]) (fun k => ?_) fun k => rfl
      rw [current, h.held]
      by_cases hk : key = k
      · rw [if_pos hk, ← hk, hv]
      · rw [if_neg hk]

theorem get_value (s : Recency κ β) (key : κ) : (s.get key).2 = s.lookup key := by
  rw [Recency.get]
  cases s.lookup key <;> rfl

/-- Making room leaves a list with the same history, less its last key. -/
theorem Faithful.evict (h : s.Faithful) (hcap : 1 ≤ s.capacity) :
    s.evict.Faithful ∧ s.evict.entries.length < s.capacity := by
  rw [Recency.evict]
  split
  · next hfull =>
      cases hlast : s.entries.getLast? with
      | none =>
          rw [List.getLast?_eq_none_iff.mp hlast] at hfull
          exact absurd hfull (by simp; omega)
      | some e =>
          have hb := h.bound
          refine ⟨⟨?_, ?_, fun k => ?_, ?_⟩, ?_⟩
          · exact h.nodup.sublist ((List.dropLast_sublist _).map _)
          · simp only [List.length_dropLast]
            omega
          · change current (Event.removed e.1 :: s.history) k = find s.entries.dropLast k
            rw [current, find_dropLast h.nodup hlast, h.held]
            rfl
          · exact h.recent.sublist (List.dropLast_sublist _)
          · simp only [List.length_dropLast]
            omega
  · next hroom => exact ⟨h, Nat.not_le.mp hroom⟩

theorem find_evict_none (hnone : s.lookup key = none) : find s.evict.entries key = none := by
  rw [Recency.evict]
  split
  · refine find_eq_none.mpr fun hmem => find_eq_none.mp hnone ?_
    exact ((List.dropLast_sublist _).map _).mem hmem
  · exact hnone

omit [DecidableEq κ] in
theorem capacity_evict (s : Recency κ β) : s.evict.capacity = s.capacity := by
  rw [Recency.evict]
  split <;> rfl

theorem Faithful.put (h : s.Faithful) (hcap : 1 ≤ s.capacity) (key : κ) (value : β) :
    (s.put key value).Faithful := by
  rw [Recency.put]
  split
  · next hmem => exact h.promote hmem (fun k => by rw [current, h.held]) fun k => rfl
  · next hmem =>
      have hnone : s.lookup key = none := by simpa using hmem
      obtain ⟨he, hroom⟩ := h.evict hcap
      have hout := find_eq_none.mp (find_evict_none hnone)
      refine ⟨?_, ?_, fun k => ?_, ?_⟩
      · exact List.nodup_cons.mpr ⟨hout, he.nodup⟩
      · rw [capacity_evict]
        exact hroom
      · change current (Event.stored key value :: s.evict.history) k =
          find ((key, value) :: s.evict.entries) k
        rw [current, find_cons, he.held]
        rfl
      · exact Faithful.recent_cons (fun k => rfl) hout he.recent

theorem Faithful.removeWhere (h : s.Faithful) (p : κ → Bool) : (s.removeWhere p).Faithful := by
  have hmap : (s.entries.filter fun e => p e.1).map (fun e => (Event.removed e.1 : Event κ β)) =
      ((s.entries.filter fun e => p e.1).map (·.1)).map Event.removed := by
    rw [List.map_map]
    rfl
  refine ⟨?_, ?_, fun k => ?_, ?_⟩
  · exact h.nodup.sublist (List.filter_sublist.map _)
  · exact Nat.le_trans (List.length_filter_le _ _) h.bound
  · have hf := find_filter s.entries (fun x => !p x) k
    simp only [Recency.removeWhere, Recency.lookup]
    rw [hmap, current_removed, h.held, hf]
    by_cases hp : p k
    · -- a key that is removed was held, or is not held anyway
      by_cases hin : k ∈ (s.entries.filter fun e => p e.1).map (·.1)
      · simp [hin, hp]
      · have hout : k ∉ s.entries.map (·.1) := by
          intro hk
          obtain ⟨a, ha, rfl⟩ := List.mem_map.mp hk
          exact hin (List.mem_map_of_mem (List.mem_filter.mpr ⟨ha, hp⟩))
        simp [hin, hp, Recency.lookup, find_eq_none.mpr hout]
    · have hin : k ∉ (s.entries.filter fun e => p e.1).map (·.1) := by
        intro hk
        obtain ⟨a, ha, rfl⟩ := List.mem_map.mp hk
        exact hp (List.mem_filter.mp ha).2
      simp [hin, hp, Recency.lookup]
  · simp only [Recency.removeWhere]
    rw [hmap]
    simp only [lastUse_removed]
    exact h.recent.sublist List.filter_sublist

/-! ## Where the entries come from -/

theorem mem_of_find {l : List (κ × β)} {key : κ} {value : β} (h : find l key = some value) :
    (key, value) ∈ l := by
  induction l with
  | nil => exact absurd h (by simp [find])
  | cons e l ih =>
      rw [find_cons] at h
      split at h
      · next he =>
          obtain rfl := Option.some.inj h
          exact List.mem_cons.mpr (.inl (he ▸ rfl))
      · exact List.mem_cons_of_mem e (ih h)

theorem mem_promote {value : β} {e : κ × β} (h : e ∈ s.promote key value) :
    e = (key, value) ∨ e ∈ s.entries :=
  (List.mem_cons.mp h).imp_right fun h => (List.mem_filter.mp h).1

theorem mem_get {e : κ × β} (h : e ∈ (s.get key).1.entries) : e ∈ s.entries := by
  rw [Recency.get] at h
  cases hl : s.lookup key with
  | none => rwa [hl] at h
  | some value =>
      rw [hl] at h
      rcases mem_promote h with rfl | h
      · exact mem_of_find hl
      · exact h

theorem mem_put {value : β} {e : κ × β} (h : e ∈ (s.put key value).entries) :
    e = (key, value) ∨ e ∈ s.entries := by
  rw [Recency.put] at h
  split at h
  · exact mem_promote h
  · refine (List.mem_cons.mp h).imp_right fun h => ?_
    rw [Recency.evict] at h
    split at h
    · exact List.dropLast_subset _ h
    · exact h

omit [DecidableEq κ] in
theorem mem_removeWhere {p : κ → Bool} {e : κ × β} (h : e ∈ (s.removeWhere p).entries) :
    e ∈ s.entries ∧ p e.1 = false := by
  simpa [Recency.removeWhere] using h

end Recency

end Lib
