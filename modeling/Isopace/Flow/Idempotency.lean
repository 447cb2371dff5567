import Isopace.Iso8583.Clone

/-!
# The in-memory idempotency store

Model of `MemoryStore` (flow/idempotency.go), which answers with a clone of the stored response.
Result: `replay_marshal`.
-/

namespace Isopace.Flow

open Lib Iso8583 FieldCodec

variable {K : Codecs}

/-- `MemoryStore`; a key can be recorded without a response. -/
structure MemoryStore (K : Codecs) where
  resp : List (Bytes × Option (Message K))

/-- `NewMemoryStore`, line 47. -/
def newMemoryStore : MemoryStore K := ⟨[]⟩

namespace MemoryStore

/-- `Lookup`: the response, nil or not, of a key that was found. -/
def lookup (st : MemoryStore K) (key : Bytes) : Option (Option (Message K)) :=
  match st.resp.lookup key with
  | none => none
  | some none => some none
  | some (some m) => some (some m.clone)

/-- `Store`, line 64. -/
def store (st : MemoryStore K) (key : Bytes) (resp : Option (Message K)) : MemoryStore K :=
  ⟨MessageOf.mapSet key (resp.map MessageOf.clone) st.resp⟩

def storeAll (st : MemoryStore K) (calls : List (Bytes × Option (Message K))) : MemoryStore K :=
  calls.foldl (fun st call => st.store call.1 call.2) st

lemma resp_storeAll (calls : List (Bytes × Option (Message K))) {key : Bytes}
    (hkey : ∀ call ∈ calls, call.1 ≠ key) (st : MemoryStore K) :
    (st.storeAll calls).resp.lookup key = st.resp.lookup key := by
  induction calls generalizing st with
  | nil => rfl
  | cons call calls ih =>
    rw [storeAll, List.foldl_cons, ← storeAll, ih fun c h => hkey c (List.mem_cons_of_mem _ h)]
    exact (MessageOf.lookup_mapSet _ _ _ _).trans (if_neg (hkey call List.mem_cons_self).symm)

/-- The response that is replayed is a clone of a clone of the one that was stored. -/
theorem lookup_storeAll (st : MemoryStore K) (key : Bytes) (m : Message K)
    (calls : List (Bytes × Option (Message K))) (hkey : ∀ call ∈ calls, call.1 ≠ key) :
    ((st.store key (some m)).storeAll calls).lookup key = some (some m.clone.clone) := by
  simp [lookup, resp_storeAll calls hkey, store, MessageOf.lookup_mapSet]

end MemoryStore

/-- **A replayed response marshals like the stored one**, if no message that retains a source was
edited. -/
theorem replay_marshal (n : ℕ) (c : Codec Catalog) {m0 : Message Catalog}
    (h0 : (∃ s, m0 = Message.new s) ∨ ∃ c0 w, Codec.unmarshal (catalog n) c0 w = .ok m0)
    (calls : List (Iso8583.Call Catalog)) (hcalls : RunEditsBuilt (catalog n) m0 calls) :
    let m := runCalls (catalog n) m0 calls
    c.marshal (catalog n) m.clone [] = c.marshal (catalog n) m [] ∧
      ∀ (st : MemoryStore Catalog) key others, (∀ call ∈ others, call.1 ≠ key) →
        ∃ r, ((st.store key (some m)).storeAll others).lookup key = some (some r) ∧
          c.marshal (catalog n) r [] = c.marshal (catalog n) m [] := by
  intro m
  have hm0 : m0.Pristine := by
    rcases h0 with ⟨s, rfl⟩ | ⟨c0, w, h⟩
    · exact Message.new_pristine s
    · exact Codec.unmarshal_pristine h
  have hm : m.Pristine := runCalls_pristine (catalog_decodesPristine n) calls hm0 hcalls
  have ho := catalog_clonesEncode n
  refine ⟨marshal_clone ho hm c [], fun st key others hkey => ?_⟩
  refine ⟨m.clone.clone, st.lookup_storeAll key m others hkey, ?_⟩
  rw [marshal_clone ho hm.clone, marshal_clone ho hm]

theorem replay_marshal_pan :
    (∃ m0 r, (Codec.mk panSchema ⟨false, false⟩).unmarshal (catalog 0) panWire = .ok m0 ∧
      (newMemoryStore.store [1] (some (runCalls (catalog 0) m0 [.get 2, .toSealed]))).lookup [1] =
        some (some r) ∧
      (Codec.mk panSchema ⟨false, false⟩).marshal (catalog 0) r [] = .ok panWire) ∧
    ∃ w, (Codec.mk panSchema ⟨false, false⟩).marshal (catalog 0)
        (runCalls (catalog 0) (Message.new panSchema) [.set 0 (.string [0x30, 0x32, 0x30, 0x30]),
          .set 2 (.string [0x34]), .unset 2]).clone [] = .ok w := by
  constructor
  · obtain ⟨-, h⟩ := replay_marshal 0 (Codec.mk panSchema ⟨false, false⟩) (Or.inr
      ⟨Codec.mk panSchema ⟨false, false⟩, panWire, rfl⟩) [.get 2, .toSealed]
      ⟨trivial, trivial, trivial⟩
    obtain ⟨r, hr, hw⟩ := h newMemoryStore [1] [] (List.forall_mem_nil _)
    exact ⟨_, r, rfl, hr, hw.trans rfl⟩
  · obtain ⟨h, -⟩ := replay_marshal 0 (Codec.mk panSchema ⟨false, false⟩) (Or.inl ⟨panSchema, rfl⟩)
      [.set 0 (.string [0x30, 0x32, 0x30, 0x30]), .set 2 (.string [0x34]), .unset 2]
      ⟨fun _ _ => ⟨rfl, trivial⟩, fun _ _ => ⟨rfl, trivial⟩, fun _ _ => rfl, trivial⟩
    exact ⟨_, h.trans rfl⟩

/-- **The clone of an edited message forgets the edit**: it marshals to the original wire. -/
theorem clone_forgets_edit : ∃ m0 m w,
    (Codec.mk panSchema ⟨false, false⟩).unmarshal (catalog 0) panWire = .ok m0 ∧
    m0.set 2 (.string [0x39, 0x39, 0x39]) = .ok m ∧
    (Codec.mk panSchema ⟨false, false⟩).marshal (catalog 0) m [] = .ok w ∧
    (Codec.mk panSchema ⟨false, false⟩).marshal (catalog 0) m.clone [] = .ok panWire ∧
    w ≠ panWire :=
  ⟨_, _, [0x30, 0x32, 0x30, 0x30, 0x40, 0, 0, 0, 0, 0, 0, 0, 0x30, 0x33, 0x39, 0x39, 0x39],
    rfl, rfl, rfl, rfl, by decide⟩

end Isopace.Flow
