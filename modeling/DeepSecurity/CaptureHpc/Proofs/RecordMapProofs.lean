import DeepSecurity.CaptureHpc.Proofs.HashMapProofs

/-!
# Proofs: records in a hash map

The drivers use the hash map for pointers to records, with at most one record for a key. `Refers` gives
the record of each key; it is kept when a record is written, put into the map or removed from it.
-/

namespace CaptureHpc

namespace RecordMap

variable {R : Type} {t : RecordMap R} {ptr : UInt32 → Pointer} {key : UInt32} {a : Addr}

/-- Each key has at most one record, and no two keys have the same one. There may be other records. -/
structure Refers (t : RecordMap R) (ptr : UInt32 → Pointer) : Prop where
  table : t.table.Represents fun key => ((ptr key).map some).toList
  isSome : ∀ key a, ptr key = some a → (t.pool a).isSome
  inj : ∀ key key' a, ptr key = some a → ptr key' = some a → key = key'

namespace Refers

theorem initialise : (RecordMap.initialise : RecordMap R).Refers fun _ => none :=
  ⟨HashMap.represents_initialise, by simp, by simp⟩

theorem find (h : t.Refers ptr) (key : UInt32) : t.table.findHashMapValue key = .ok (ptr key) := by
  rw [HashMap.findHashMapValue_eq h.table]
  cases ptr key <;> rfl

theorem find_pair (h : t.Refers ptr) (key : UInt32) :
    ∃ p, t.table.findHashMap key = .ok p ∧ (p.isSome ↔ (ptr key).isSome) := by
  obtain ⟨p, hp, hiff⟩ := HashMap.findHashMap_isSome h.table key
  refine ⟨p, hp, hiff.trans ?_⟩
  cases ptr key <;> simp

theorem exists_record (h : t.Refers ptr) (ha : ptr key = some a) : ∃ r, t.pool a = some r :=
  Option.isSome_iff_exists.mp (h.isSome key a ha)

/-- Records are written. -/
theorem write (h : t.Refers ptr) (a : Addr) (r : R) :
    Refers { t with pool := t.pool.write a r } ptr := by
  refine ⟨h.table, fun key b hb => ?_, h.inj⟩
  by_cases hba : b = a
  · subst hba
    simp
  · simpa [Heap.write_of_ne hba] using h.isSome key b hb

/-- A new record is put under a key that has none. -/
theorem insert (h : t.Refers ptr) (hkey : ptr key = none) (ha : t.pool a = none) (r : R) (pool : Pool) :
    ∃ table, t.table.insertHashMap key (some a) pool = .ok (t.table.grants key pool, table) ∧
      Refers ⟨table, t.pool.write a r⟩
        (if t.table.grants key pool then Function.update ptr key (some a) else ptr) := by
  obtain ⟨table, hinsert, hrep⟩ := HashMap.insertHashMap_spec h.table key (some a) pool
  have hne {key' : UInt32} : ptr key' ≠ some a := fun heq => by
    have hsome := h.isSome key' a heq
    rw [ha] at hsome
    cases hsome
  have hwrite := h.write a r
  refine ⟨table, hinsert, ?_⟩
  cases hgrants : t.table.grants key pool with
  | false =>
    rw [hgrants, if_neg Bool.false_ne_true] at hrep
    rw [if_neg Bool.false_ne_true]
    exact ⟨hrep, hwrite.isSome, h.inj⟩
  | true =>
    rw [hgrants, if_pos rfl] at hrep
    rw [if_pos rfl]
    refine ⟨?_, fun key' b hb => ?_, fun key₁ key₂ b h₁ h₂ => ?_⟩
    · convert hrep using 2 with key'
      by_cases hkey' : key' = key
      · subst hkey'
        simp [HashMap.Queues.enqueue, hkey]
      · simp [HashMap.Queues.enqueue, hkey']
    · by_cases hkey' : key' = key
      · subst hkey'
        rw [Function.update_self, Option.some_inj] at hb
        simp [← hb]
      · rw [Function.update_of_ne hkey'] at hb
        exact hwrite.isSome key' b hb
    · by_cases hkey₁ : key₁ = key <;> by_cases hkey₂ : key₂ = key
      · rw [hkey₁, hkey₂]
      · rw [hkey₁, Function.update_self] at h₁
        rw [Function.update_of_ne hkey₂, ← h₁] at h₂
        exact absurd h₂ hne
      · rw [hkey₂, Function.update_self] at h₂
        rw [Function.update_of_ne hkey₁, ← h₂] at h₁
        exact absurd h₁ hne
      · rw [Function.update_of_ne hkey₁] at h₁
        rw [Function.update_of_ne hkey₂] at h₂
        exact h.inj key₁ key₂ b h₁ h₂

/-- A record is taken out of the map and freed. -/
theorem remove (h : t.Refers ptr) (ha : ptr key = some a) :
    ∃ table, t.table.removeHashMap key = .ok (true, table) ∧
      Refers ⟨table, t.pool.free a⟩ (Function.update ptr key none) := by
  obtain ⟨table, hremove, hrep⟩ := HashMap.removeHashMap_spec h.table key
  refine ⟨table, ?_, ?_, fun key' b hb => ?_, fun key₁ key₂ b h₁ h₂ => ?_⟩
  · rw [hremove, ha]
    rfl
  · convert hrep using 2 with key'
    by_cases hkey : key' = key
    · subst hkey
      simp [HashMap.Queues.dequeue, ha]
    · simp [HashMap.Queues.dequeue, hkey]
  · by_cases hkey : key' = key
    · rw [hkey, Function.update_self] at hb
      cases hb
    · rw [Function.update_of_ne hkey] at hb
      have hba : b ≠ a := fun heq => hkey (h.inj key' key a (heq ▸ hb) ha)
      simpa [Heap.free_of_ne hba] using h.isSome key' b hb
  · by_cases hkey₁ : key₁ = key
    · rw [hkey₁, Function.update_self] at h₁
      cases h₁
    · by_cases hkey₂ : key₂ = key
      · rw [hkey₂, Function.update_self] at h₂
        cases h₂
      · rw [Function.update_of_ne hkey₁] at h₁
        rw [Function.update_of_ne hkey₂] at h₂
        exact h.inj key₁ key₂ b h₁ h₂

end Refers

end RecordMap

end CaptureHpc
