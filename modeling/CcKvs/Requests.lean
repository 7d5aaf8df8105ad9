/-
A cold request on its way to a worker and back. The client collects the
operations for a machine (`add_erpc_request`) and packs them behind each other
without any length in between (`send_requests`); the worker finds each boundary
from the opcode at the one before (`req_handler`), runs the operations of all
requests as one batch, and cuts the array of responses at running offsets
(`drain_batch`).
-/
import CcKvs.Sc.Client
import CcKvs.Worker

namespace CcKvs

open Bytes Worker

/-- `batch[rm_id]` and `req_length[rm_id]` of a `ClientContext`; `idx[rm_id]` is the number of
entries. -/
abbrev ErpcBatch := List (Bytes × ℕ)

def addErpcRequest (op : Bytes) (requestLength : ℕ) (batch : ErpcBatch) : Except Fault ErpcBatch :=
  if batch.length < Sc.windowSize then .ok (batch ++ [(op, requestLength)]) else .error .windowFull

/-- `total_length` -/
def ErpcBatch.totalLength (batch : ErpcBatch) : ℕ := total batch

/-- What `send_requests` leaves in the buffer it has allocated. -/
def ErpcBatch.message (batch : ErpcBatch) (buffer : Bytes) : Bytes := gather buffer 0 batch

/-- What `handle_cold_requests` has added for these operations, each with its `size_of_op`. -/
def coldBatch (cfg : Config) (ops : List Bytes) : ErpcBatch := ops.map fun op => (op, sizeOfOp cfg op)

/-- A request of a pass: the worker's handle for it, what the client has packed, and the memory
it was packed into. -/
structure ColdRequest (H : Type) where
  handle : H
  ops : List Bytes
  buffer : Bytes

def ColdRequest.received {H : Type} (cfg : Config) (r : ColdRequest H) : H × Bytes × ℕ :=
  (r.handle, (coldBatch cfg r.ops).message r.buffer, (coldBatch cfg r.ops).totalLength)

/-! ## Boundaries -/

section

variable {cfg : Config}

theorem le_sizeOfOp (cfg : Config) (op : Bytes) : 17 ≤ sizeOfOp cfg op := by
  unfold sizeOfOp
  split
  · rw [cfg.herdPutReqSize_eq, micaOpMetadata_eq]
    omega
  · exact Nat.le_refl 17

/-- The size is read from the opcode. -/
theorem sizeOfOp_congr (cfg : Config) {a b : Bytes} (h : Agree 17 a b) : sizeOfOp cfg a = sizeOfOp cfg b := by
  have hop : (CacheOp.ofBytes a).opcode = (CacheOp.ofBytes b).opcode := congrArg Opcode.ofByte (h 16 (by omega))
  unfold sizeOfOp
  rw [hop]

theorem total_coldBatch_append (l : List Bytes) (op : Bytes) (r : List Bytes) :
    total (coldBatch cfg (l ++ op :: r)) = total (coldBatch cfg l) + sizeOfOp cfg op + total (coldBatch cfg r) := by
  simp [total, coldBatch, Nat.add_assoc]

/-- Reading on behind the first operations gives the others, and ends where the message does. -/
theorem splitOps_from (cfg : Config) (buffer : Bytes) (l r : List Bytes) :
    List.Forall₂ (fun p op => Agree (sizeOfOp cfg op) p op)
      (splitOps cfg ((coldBatch cfg (l ++ r)).message buffer) (total (coldBatch cfg (l ++ r))) (total (coldBatch cfg l))) r ∧
    total (coldBatch cfg l) + ((splitOps cfg ((coldBatch cfg (l ++ r)).message buffer) (total (coldBatch cfg (l ++ r)))
      (total (coldBatch cfg l))).map (sizeOfOp cfg)).sum = total (coldBatch cfg (l ++ r)) := by
  induction r generalizing l with
  | nil =>
    rw [List.append_nil, splitOps, if_neg (Nat.lt_irrefl _)]
    exact ⟨.nil, rfl⟩
  | cons op r ih =>
    have hlt : total (coldBatch cfg l) < total (coldBatch cfg (l ++ op :: r)) := by
      have hpos := le_sizeOfOp cfg op
      rw [total_coldBatch_append]
      omega
    have hagree : Agree (sizeOfOp cfg op)
        (((coldBatch cfg (l ++ op :: r)).message buffer).drop (total (coldBatch cfg l))) op := by
      have h : Agree (sizeOfOp cfg op) ((gather buffer 0 (coldBatch cfg l ++ (op, sizeOfOp cfg op) :: coldBatch cfg r)).drop
          (0 + total (coldBatch cfg l))) op := agree_gather
      rw [Nat.zero_add] at h
      simpa only [ErpcBatch.message, coldBatch, List.map_append, List.map_cons] using h
    have hsize := sizeOfOp_congr cfg (hagree.mono (le_sizeOfOp cfg op))
    obtain ⟨hrest, hsum⟩ := ih (l ++ [op])
    rw [List.append_assoc, List.singleton_append] at hrest hsum
    have hoff : total (coldBatch cfg (l ++ [op])) = total (coldBatch cfg l) + sizeOfOp cfg op := by
      rw [total_coldBatch_append]
      rfl
    rw [hoff] at hrest hsum
    rw [splitOps, if_pos hlt, hsize]
    refine ⟨.cons hagree hrest, ?_⟩
    rw [List.map_cons, List.sum_cons, hsize]
    omega

/-- **A message is split into what was packed**, and nothing is left over. -/
theorem splitOps_message (cfg : Config) (buffer : Bytes) (ops : List Bytes) :
    List.Forall₂ (fun p op => Agree (sizeOfOp cfg op) p op)
      (splitOps cfg ((coldBatch cfg ops).message buffer) (coldBatch cfg ops).totalLength 0) ops ∧
    ((splitOps cfg ((coldBatch cfg ops).message buffer) (coldBatch cfg ops).totalLength 0).map (sizeOfOp cfg)).sum =
      (coldBatch cfg ops).totalLength := by
  obtain ⟨hall, hsum⟩ := splitOps_from cfg buffer [] ops
  rw [List.nil_append] at hall hsum
  exact ⟨hall, (Nat.zero_add _).symm.trans hsum⟩

/-! ## The requests of a pass -/

variable {H : Type}

/-- The operations the worker finds in a request. -/
def ColdRequest.found (cfg : Config) (r : ColdRequest H) : List Bytes :=
  splitOps cfg (r.received cfg).2.1 (r.received cfg).2.2 0

theorem ColdRequest.length_found (cfg : Config) (r : ColdRequest H) : (r.found cfg).length = r.ops.length :=
  (splitOps_message cfg r.buffer r.ops).1.length_eq

end

end CcKvs
