/-
Requests for keys whose home is the client's own machine (`issue_locals` and
`serve_local_reqs` in `inline_util.h`). A client and a worker share a window of
`LOCAL_WINDOW` slots of `local_req_region`, in `LOCAL_REGIONS` regions with a
flag each. The client writes its requests to the slots in cyclic order and sets
the flag of a region with its last slot. The worker looks at the flags from
region 0 on, again and again; it executes a region whose flag is set, and then
clears the flag.

The two are threads without locks. A step is one access to a flag or a slot, so
`issue_locals` and `serve_local_reqs` are cut there, and a state has a program
counter for each of them. A slot holds what `memcpy` copies, the first
`size_of_op` bytes of an operation; `KVS_BATCH_OP` reads no more of it.
-/
import Mathlib
import CcKvs.Lib.Handoff
import CcKvs.Lib.Lts

namespace CcKvs.Local

open Function Handoff

/-- The sizes of the build, with what `main.c` asserts of them, and one client and worker of the machine. -/
structure Config where
  localWindow : ℕ
  localRegions : ℕ
  clientsPerMachine : ℕ
  wn : ℕ
  cn : ℕ
  window_pos : 0 < localWindow
  /-- `assert(LOCAL_WINDOW % LOCAL_REGIONS == 0)` -/
  perfect : localWindow % localRegions = 0
  /-- `assert(LOCAL_REGIONS <= 64)` -/
  regions_le : localRegions ≤ 64
  /-- `wrkr_offset` is an `uint16_t`. -/
  offset_fits : clientsPerMachine * localWindow ≤ 2 ^ 16
  cn_lt : cn < clientsPerMachine

namespace Config

variable (c : Config)

def localRegionSize : ℕ := c.localWindow / c.localRegions

/-- `OFFSET(wn, cn, ws)` -/
def offset (wn cn ws : ℕ) : ℕ := wn * c.clientsPerMachine * c.localWindow + cn * c.localWindow + ws

/-- Where the client writes with window slot `ws`. -/
def slot (ws : ℕ) : ℕ := c.offset c.wn c.cn ws

/-- `loc_region`, an `uint8_t`. -/
def locRegion (ws : ℕ) : ℕ := c.slot ws % c.localWindow / c.localRegionSize % 2 ^ 8

/-- `local_op_ptr_arr[wrkr_offset + j]` for region `i`. -/
def served (i j : ℕ) : ℕ :=
  c.wn * c.clientsPerMachine * c.localWindow + ((c.cn * c.localWindow + i * c.localRegionSize) % 2 ^ 16 + j)

/-- `HRD_MOD_ADD(ws[wn], LOCAL_WINDOW)` -/
def modAdd (ws : ℕ) : ℕ := if ws + 1 = c.localWindow then 0 else ws + 1

/-- The next round of the loop over the regions; after the last, the first of the next call. -/
def nextRegion (i : ℕ) : ℕ := if i + 1 < c.localRegions then i + 1 else 0

end Config

/-- Where a client is in `issue_locals`. -/
inductive IssuePc (α : Type*)
  | idle
  /-- The flag was 0. -/
  | fill (op : α)
  /-- The last slot of the region is written. -/
  | lock

/-- Where a worker is in `serve_local_reqs`, as far as this window goes. -/
inductive ServePc
  | look (i : ℕ)
  /-- In `KVS_BATCH_OP`, at request `j` of region `i`. -/
  | run (i j : ℕ)
  | clear (i : ℕ)

structure Window (α : Type*) where
  localReqRegion : ℕ → α
  /-- `local_recv_flag[wn][cn]` -/
  localRecvFlag : ℕ → Bool
  /-- `ws[wn]` of the client -/
  ws : ℕ
  issue : IssuePc α
  serve : ServePc

inductive Event (α : Type*)
  | issue (slot : ℕ) (op : α)
  | execute (slot : ℕ) (op : α)
  /-- Any other step of the client. -/
  | client
  /-- Any other step of the worker. -/
  | worker
  | other

namespace Event

variable {α : Type*}

def access : Event α → Option (ℕ × Transfer α)
  | issue a op => some (a, .put op)
  | execute a op => some (a, .take op)
  | _ => none

def isWorker : Event α → Bool
  | execute _ _ | worker => true
  | _ => false

end Event

section

variable {α : Type*} (es : List (Event α))

/-- The accesses to slots. -/
def trace : List (ℕ × Transfer α) := es.filterMap Event.access

def issued : List (ℕ × α) := puts (trace es)

def executed : List (ℕ × α) := takes (trace es)

end

namespace Window

section

variable {α : Type*} (c : Config) (w : Window α)

/-- `memcpy`, and then the next slot or, with the last slot of a region, its flag. -/
def fill (op : α) : Window α :=
  if w.ws % c.localRegionSize = c.localRegionSize - 1 then
    { w with localReqRegion := update w.localReqRegion (c.slot w.ws) op, issue := .lock }
  else
    { w with localReqRegion := update w.localReqRegion (c.slot w.ws) op, ws := c.modAdd w.ws, issue := .idle }

def lock : Window α :=
  { w with localRecvFlag := update w.localRecvFlag (c.locRegion w.ws) true, ws := c.modAdd w.ws, issue := .idle }

/-- `if (local_recv_flag[wrkr_lid][clt_i][i] == 0) continue` -/
def look (i : ℕ) : Window α :=
  { w with serve := if w.localRecvFlag i then .run i 0 else .look (c.nextRegion i) }

def run (i j : ℕ) : Window α :=
  { w with serve := if j + 1 < c.localRegionSize then .run i (j + 1) else .clear i }

def clear (i : ℕ) : Window α :=
  { w with localRecvFlag := update w.localRecvFlag i false, serve := .look (c.nextRegion i) }

/-- `main` clears the flags; the slots hold anything. -/
def Init : Prop := w.localRecvFlag = (fun _ => false) ∧ w.ws = 0 ∧ w.issue = .idle ∧ w.serve = .look 0

end

inductive Step {α : Type*} (c : Config) : Window α → Event α → Window α → Prop
  | check (op : α) : w.issue = .idle → w.localRecvFlag (c.locRegion w.ws) = false →
      Step c w .client { w with issue := .fill op }
  /-- `copy_op_to_next_op`: the request is tried again in the next iteration. -/
  | retry : w.issue = .idle → w.localRecvFlag (c.locRegion w.ws) = true → Step c w .client w
  | fill : w.issue = .fill op → Step c w (.issue (c.slot w.ws) op) (w.fill c op)
  | lock : w.issue = .lock → Step c w .client (w.lock c)
  | look : w.serve = .look i → Step c w .worker (w.look c i)
  | run : w.serve = .run i j → Step c w (.execute (c.served i j) (w.localReqRegion (c.served i j))) (w.run c i j)
  | clear : w.serve = .clear i → Step c w .worker (w.clear c i)
  /-- Another client writes to a slot of another window. -/
  | other (wn cn ws : ℕ) (op : α) : cn < c.clientsPerMachine → ws < c.localWindow → (wn, cn) ≠ (c.wn, c.cn) →
      Step c w .other { w with localReqRegion := update w.localReqRegion (c.offset wn cn ws) op }

end Window

def system (α : Type*) (c : Config) : Lts (Window α) (Event α) where
  init := Window.Init
  step := Window.Step c

end CcKvs.Local
