import Pathwise.Proofs.SortedMap
import Pathwise.Value.Supply

/-!
# The ledger of a run

Values are compared by identity alone. That this is sound rests on how identities are handed out:
the ledger of a run lists the values handed out so far, each at the place of its identity, so that
two values of the run with the same identity are the same value, and everything that a value was
made from stands before it. A ledger only grows at its end.
-/

namespace Pathwise

namespace Value

/-- The shared values, each at the place of its identity. -/
def sharedValues : List Value := [unknown, null, self, bool true, bool false]

/-- The shared values have no operands. -/
theorem operands_of_shared {v : Value} (h : v ∈ sharedValues) : v.operands = [] := by
  simp only [sharedValues, List.mem_cons, List.not_mem_nil, or_false] at h
  rcases h with rfl | rfl | rfl | rfl | rfl <;> rfl

/-- A value itself or something that it was made from, at any depth. -/
inductive Part : Value → Value → Prop where
  /-- A value is a part of itself. -/
  | refl (v : Value) : Part v v
  /-- A part of an operand is a part of the value made from it. -/
  | operand {u o v : Value} (ho : o ∈ v.operands) (hu : Part u o) : Part u v

theorem Part.trans {u v w : Value} (huv : u.Part v) (hvw : v.Part w) : u.Part w := by
  induction hvw with
  | refl => exact huv
  | operand ho _ ih => exact .operand ho ih

/-- What holds of a value and of all parts of its operands holds of all its parts. -/
theorem forall_part {v : Value} {Q : Value → Prop} (hv : Q v)
    (ho : ∀ o ∈ v.operands, ∀ u : Value, u.Part o → Q u) : ∀ u : Value, u.Part v → Q u := by
  intro u hu
  cases hu with
  | refl => exact hv
  | operand hmem hpart => exact ho _ hmem u hpart

/-- A value without operands has no other part. -/
theorem Part.eq_of_operands_nil {u v : Value} (h : u.Part v) (hv : v.operands = []) : u = v := by
  cases h with
  | refl => rfl
  | operand ho _ => simp [hv] at ho

end Value

/-- A list of values is a ledger if each stands at the place of its identity, behind all that it was
made from, and the shared values come first. -/
structure Ledger (l : List Value) : Prop where
  /-- A value stands at the place of its identity. -/
  id_eq : ∀ {i : Nat} {v : Value}, l[i]? = some v → v.id = i
  /-- What a value was made from stands in the ledger, before it. -/
  operand : ∀ {v o : Value}, v ∈ l → o ∈ v.operands → o ∈ l ∧ o.id < v.id
  /-- The shared values come first. -/
  shared : Value.sharedValues <+: l

namespace Ledger

variable {l : List Value}

/-- A value stands at its number. -/
theorem getElem?_id (h : Ledger l) {v : Value} (hv : v ∈ l) : l[v.id]? = some v := by
  obtain ⟨i, hi⟩ := List.getElem?_of_mem hv
  rwa [h.id_eq hi]

/-- Identity means sameness. -/
theorem eq_of_id (h : Ledger l) {v w : Value} (hv : v ∈ l) (hw : w ∈ l) (hid : v.id = w.id) :
    v = w := by
  have hfound := h.getElem?_id hv
  rw [hid, h.getElem?_id hw] at hfound
  exact (Option.some.inj hfound).symm

theorem id_lt (h : Ledger l) {v : Value} (hv : v ∈ l) : v.id < l.length :=
  (List.getElem?_eq_some_iff.1 (h.getElem?_id hv)).1

/-- What is added has higher numbers than what is there. -/
theorem length_le_id {ext : List Value} (h : Ledger (l ++ ext)) {v : Value} (hv : v ∈ ext) :
    l.length ≤ v.id := by
  obtain ⟨i, hi⟩ := List.getElem?_of_mem hv
  have hplace : (l ++ ext)[l.length + i]? = some v := by
    rwa [List.getElem?_append_right (Nat.le_add_right _ _), Nat.add_sub_cancel_left]
  rw [h.id_eq hplace]
  exact Nat.le_add_right _ _

theorem mem_of_shared (h : Ledger l) {v : Value} (hv : v ∈ Value.sharedValues) : v ∈ l :=
  h.shared.subset hv

theorem unknown_mem (h : Ledger l) : Value.unknown ∈ l :=
  h.mem_of_shared (by simp [Value.sharedValues])

theorem shared_length_le (h : Ledger l) : Value.firstFree ≤ l.length := h.shared.length_le

/-- A ledger is closed under taking parts, and parts have no larger identities. -/
theorem part (h : Ledger l) {u v : Value} (hu : u.Part v) (hv : v ∈ l) : u ∈ l ∧ u.id ≤ v.id := by
  induction hu with
  | refl => exact ⟨hv, Nat.le_refl _⟩
  | operand ho _ ih =>
    obtain ⟨hmem, hlt⟩ := h.operand hv ho
    obtain ⟨hu, hle⟩ := ih hmem
    exact ⟨hu, by omega⟩

/-- A value that has the identity of a shared value is that value. -/
theorem eq_of_shared_id (h : Ledger l) {v w : Value} (hv : v ∈ l) (hw : w ∈ Value.sharedValues)
    (hid : v.id = w.id) : v = w :=
  h.eq_of_id hv (h.mem_of_shared hw) hid

/-- There is one value for the receiver itself. -/
theorem eq_self (h : Ledger l) {v : Value} (hv : v ∈ l) (hs : v.isSelf = true) : v = .self :=
  h.eq_of_shared_id hv (by simp [Value.sharedValues]) (by simpa [Value.isSelf] using hs)

/-- The ledger before the first value of a run. -/
theorem start : Ledger Value.sharedValues where
  id_eq := by
    intro i v hv
    match i with
    | 0 | 1 | 2 | 3 | 4 =>
      simp only [Value.sharedValues, List.getElem?_cons_zero, List.getElem?_cons_succ,
        Option.some.injEq] at hv
      subst hv
      rfl
    | i + 5 => simp [Value.sharedValues] at hv
  operand := by
    intro v o hv ho
    simp only [Value.sharedValues, List.mem_cons, List.not_mem_nil, or_false] at hv
    rcases hv with rfl | rfl | rfl | rfl | rfl <;> simp [Value.operands] at ho
  shared := List.prefix_refl _

/-- A new value goes behind the last one. -/
theorem snoc (h : Ledger l) {v : Value} (hid : v.id = l.length) (ho : ∀ o ∈ v.operands, o ∈ l) :
    Ledger (l ++ [v]) where
  id_eq := by
    intro i w hw
    rw [List.getElem?_append] at hw
    split at hw
    · exact h.id_eq hw
    · rw [List.getElem?_singleton] at hw
      split at hw
      · obtain rfl := Option.some.inj hw
        omega
      · cases hw
  operand := by
    intro w o hw hwo
    rcases List.mem_append.1 hw with hw | hw
    · obtain ⟨hmem, hlt⟩ := h.operand hw hwo
      exact ⟨List.mem_append_left _ hmem, hlt⟩
    · rw [List.mem_singleton] at hw
      subst hw
      have hmem := ho o hwo
      exact ⟨List.mem_append_left _ hmem, hid ▸ h.id_lt hmem⟩
  shared := h.shared.trans (List.prefix_append _ _)

end Ledger

namespace Supply

/-- A supply goes with a ledger if it hands out the next place, and the values it keeps for loop
headers are those of the ledger. -/
structure Tracks (σ : Supply) (l : List Value) : Prop where
  /-- The next identity is the next place. -/
  next_eq : σ.next = l.length
  /-- The value kept for a variable at a header was made for them. -/
  canonical_mem : ∀ {h x v}, σ.canonical? h x = some v → v ∈ l ∧ ∃ id, v = .widened id h x
  /-- Nothing else was made for a variable at a header. -/
  canonical_eq : ∀ {id h x}, .widened id h x ∈ l → σ.canonical? h x = some (.widened id h x)

variable {σ : Supply} {l : List Value}

/-- The first supply tracks the shared values. -/
theorem start_tracks : start.Tracks Value.sharedValues where
  next_eq := rfl
  canonical_mem := by
    intro h x v hv
    simp [start, canonical?] at hv
  canonical_eq := by
    intro id h x hmem
    simp [Value.sharedValues] at hmem

/-- Issuing a value that is none of a loop header extends the ledger by it. -/
theorem Tracks.issue (ht : σ.Tracks l) {make : Nat → Value}
    (hmake : ∀ id h x, make σ.next ≠ .widened id h x) :
    (σ.issue make).2.Tracks (l ++ [make σ.next]) where
  next_eq := by simp [Supply.issue, ht.next_eq]
  canonical_mem := by
    intro h x v hv
    obtain ⟨hmem, hv⟩ := ht.canonical_mem hv
    exact ⟨List.mem_append_left _ hmem, hv⟩
  canonical_eq := by
    intro id h x hmem
    rcases List.mem_append.1 hmem with hmem | hmem
    · exact ht.canonical_eq hmem
    · exact absurd (List.mem_singleton.1 hmem).symm (hmake id h x)

/-- What a supply keeps after it has kept a value for one more variable. -/
theorem canonical?_insert (σ : Supply) (h h' : Nat) (x x' : Symbol) (v : Value) (n : Nat) :
    canonical? ⟨n, σ.canonical.insert h (((σ.canonical.get? h).getD .empty).insert x v)⟩ h' x' =
      if h' = h ∧ x' = x then some v else σ.canonical? h' x' := by
  unfold canonical?
  by_cases hh : h' = h
  · subst hh
    rw [SortedMap.get?_insert_self, Option.bind_some]
    by_cases hx : x' = x
    · subst hx
      simp
    · rw [SortedMap.get?_insert_of_ne _ _ hx, if_neg (fun hc => hx hc.2)]
      cases σ.canonical.get? h' <;> simp
  · rw [SortedMap.get?_insert_of_ne _ _ hh, if_neg (fun hc => hh hc.1)]

/-- A new value is not the unknown one. -/
theorem Tracks.fresh_isUnknown (ht : σ.Tracks l) (hl : Ledger l) :
    (Value.fresh σ.next).isUnknown = false := by
  have hle : Value.firstFree ≤ σ.next := ht.next_eq ▸ hl.shared_length_le
  simp only [Value.isUnknown, Value.id, Value.firstFree, beq_eq_false_iff_ne] at hle ⊢
  omega

/-- The value at a loop header is the one that was made for it, or a new one at the end of the
ledger; from then on it is kept. -/
theorem Tracks.widened (ht : σ.Tracks l) (h : Nat) (x : Symbol) :
    ∃ id ext, (σ.widened h x).1 = .widened id h x ∧ (σ.widened h x).2.Tracks (l ++ ext) ∧
      .widened id h x ∈ l ++ ext ∧ (ext = [] ∨ ext = [.widened l.length h x]) ∧
      (σ.widened h x).2.canonical? h x = some (.widened id h x) := by
  rw [Supply.widened]
  split
  · next v hv =>
    obtain ⟨hmem, id, rfl⟩ := ht.canonical_mem hv
    refine ⟨id, [], rfl, ?_, ?_, .inl rfl, hv⟩
    · simpa using ht
    · simpa using hmem
  · next hnone =>
    refine ⟨l.length, [.widened l.length h x], ?_, ⟨?_, ?_, ?_⟩, by simp, .inr rfl, ?_⟩
    · simp [Supply.issue, ht.next_eq]
    · simp [Supply.issue, ht.next_eq]
    · intro h' x' v hv
      simp only [Supply.issue, canonical?_insert] at hv
      split at hv
      · next hc =>
        obtain ⟨rfl, rfl⟩ := hc
        obtain rfl := Option.some.inj hv
        rw [ht.next_eq]
        exact ⟨by simp, _, rfl⟩
      · obtain ⟨hmem, hv⟩ := ht.canonical_mem hv
        exact ⟨List.mem_append_left _ hmem, hv⟩
    · intro id h' x' hmem
      simp only [Supply.issue, canonical?_insert]
      rcases List.mem_append.1 hmem with hmem | hmem
      · have hkept := ht.canonical_eq hmem
        rw [if_neg, hkept]
        rintro ⟨rfl, rfl⟩
        rw [hnone] at hkept
        cases hkept
      · obtain ⟨rfl, rfl, rfl⟩ : id = l.length ∧ h' = h ∧ x' = x := by simpa using hmem
        simp [ht.next_eq]
    · simp only [Supply.issue, canonical?_insert]
      simp [ht.next_eq]

end Supply

end Pathwise
