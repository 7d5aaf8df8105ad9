/-
How a client reads its trace (`parse_trace`, util.c): a text file with one
request a line, each of four words of which the second is the home machine, the
third the worker and the fourth the key. Whether a request is a write is drawn
at random; switches replace the homes and keys of the file by drawn ones.

The numbers that `rand()` returns are an input, one after the other.
-/
import CcKvs.Client.Fill
import CcKvs.Lib.Text
import Mathlib

namespace CcKvs.Traces

open Text Client

/-- What `parse_trace` reads of main.h, cache.h and hrd.h. -/
structure Switches where
  machineNum : ℕ
  machineId : ℕ
  workersPerMachine : ℕ
  activeWorkersPerMachine : ℕ
  cacheNumKeys : ℕ
  herdNumKeys : ℕ
  /-- Out of a thousand. -/
  writeRatio : ℕ
  randomMachine : Bool
  loadBalance : Bool
  disableLocals : Bool
  sendOnlyToOneMachine : Bool
  sendOnlyToNextMachine : Bool
  balanceReqsInChunks : Bool
  chunkNum : ℕ
  doOnlyLocals : Bool
  emulatingCrew : Bool
  onlyCacheHits : Bool
  balanceHotWrites : Bool
  balanceHotReqs : Bool
  enableHotReqGrouping : Bool
  numOfKeysToGroup : ℕ
  groupSize : ℕ
  useASingleKey : Bool

/-- The switches as they are set, on one of the four machines. -/
def Switches.ofMachine (machineId : ℕ) : Switches where
  machineNum := 4
  machineId := machineId
  workersPerMachine := 20
  activeWorkersPerMachine := 20
  cacheNumKeys := 250 * 1000
  herdNumKeys := 4 * 1024 * 1024
  writeRatio := 10
  randomMachine := false
  loadBalance := true
  disableLocals := true
  sendOnlyToOneMachine := false
  sendOnlyToNextMachine := false
  balanceReqsInChunks := false
  chunkNum := 0
  doOnlyLocals := false
  emulatingCrew := true
  onlyCacheHits := false
  balanceHotWrites := false
  balanceHotReqs := false
  enableHotReqGrouping := false
  numOfKeysToGroup := 10
  groupSize := 50
  useASingleKey := false

/-- The assertion that stops the program. -/
inductive Failure
  /-- `home_machine_id < MACHINE_NUM` -/
  | machine
  /-- `DISABLE_LOCALS == 0 || machine_id != home_machine_id` -/
  | locals
  /-- `home_worker_id < WORKERS_PER_MACHINE` -/
  | worker
  /-- `range_assert(key_id, 0, CACHE_NUM_KEYS)` -/
  | key
  /-- "Reached word %d in line %d" -/
  | words (wordCount line : ℕ)
  /-- `cmd_count == debug_cnt` -/
  | count
  /-- Not of the source: the redraws allowed here are used up. -/
  | rounds
  deriving DecidableEq, Repr

/-- `trace_command` -/
structure Command where
  opcode : TraceOpcode
  homeMachineId : UInt8
  homeWorkerId : UInt8
  keyId : UInt32
  keyHash : Bytes

section

variable (sw : Switches) (draws : ℕ → ℕ) (rounds : ℕ)

/-- `while (DISABLE_LOCALS == 1 && home_machine_id == machine_id) home_machine_id = rand() % MACHINE_NUM` -/
def redraw : ℕ → UInt8 → ℕ → Except Failure (UInt8 × ℕ)
  | 0, _, _ => .error .rounds
  | n + 1, home, k =>
    if sw.disableLocals ∧ home.toNat = sw.machineId then redraw n (.ofNat (draws k % sw.machineNum)) (k + 1)
    else .ok (home, k)

/-- The switches that set the home of command `i` whatever it was. -/
def Switches.place (i : ℕ) (home : UInt8) : UInt8 :=
  if sw.sendOnlyToOneMachine then if sw.disableLocals ∧ sw.machineId = 0 then 1 else 0
  else if sw.sendOnlyToNextMachine then .ofNat ((sw.machineId + 1) % sw.machineNum)
  else if sw.balanceReqsInChunks then .ofNat (if sw.chunkNum = 0 then 0 else i / sw.chunkNum % sw.machineNum)
  else if sw.doOnlyLocals then .ofNat sw.machineId
  else home

/-- The first choice of a home, from the file or drawn. -/
def firstHome (word : List Char) (k : ℕ) : UInt8 × ℕ :=
  if sw.randomMachine then (.ofNat (draws k % sw.machineNum), k + 1) else (.ofNat (strtoul word % sw.machineNum), k)

/-- The home after balancing, or after it was moved off this machine. -/
def balancedHome (home : UInt8) (k : ℕ) : Except Failure (UInt8 × ℕ) :=
  if sw.loadBalance then redraw sw draws rounds (.ofNat (draws k % sw.machineNum)) (k + 1)
  else if sw.disableLocals ∧ home = .ofNat sw.machineId then .ok (.ofNat ((home.toNat + 1) % sw.machineNum), k)
  else .ok (home, k)

/-- The second word of line `i`; `k` numbers have been drawn. -/
def parseMachine (i : ℕ) (word : List Char) (k : ℕ) : Except Failure (UInt8 × ℕ) := do
  let (home, k) := firstHome sw draws word k
  if ¬ home.toNat < sw.machineNum then .error .machine
  else
    let (home, k) ← balancedHome sw draws rounds home k
    let home := sw.place i home
    if sw.disableLocals ∧ sw.machineId = home.toNat then .error .locals else .ok (home, k)

/-- The third word. -/
def parseWorker (word : List Char) (k : ℕ) : Except Failure (UInt8 × ℕ) :=
  let (worker, k) : UInt8 × ℕ :=
    if sw.loadBalance || sw.emulatingCrew then (.ofNat (draws k % sw.activeWorkersPerMachine), k + 1)
    else (.ofNat (strtoul word % sw.workersPerMachine), k)
  if worker.toNat < sw.workersPerMachine then .ok (worker, k) else .error .worker

/-- A key that is below `CACHE_NUM_KEYS` in the file. -/
def hotKey (isUpdate : Bool) (keyId : UInt32) (k : ℕ) : Except Failure (UInt32 × ℕ) :=
  if (sw.balanceHotWrites && isUpdate) || sw.balanceHotReqs then
    let keyId : UInt32 := .ofNat (draws k % sw.cacheNumKeys)
    if keyId.toNat ≤ sw.cacheNumKeys then .ok (keyId, k + 1) else .error .key
  else if sw.enableHotReqGrouping then
    if keyId.toNat < sw.numOfKeysToGroup then
      .ok (keyId * .ofNat sw.groupSize + .ofNat (draws k % sw.groupSize), k + 1)
    else if keyId.toNat < sw.numOfKeysToGroup * sw.groupSize then .ok (keyId + .ofNat sw.groupSize, k)
    else .ok (keyId, k)
  else .ok (keyId, k)

/-- A key that is not. -/
def coldKey (keyId : UInt32) : UInt32 :=
  let keyId := keyId % .ofNat sw.herdNumKeys
  if keyId.toNat < sw.cacheNumKeys then keyId + .ofNat sw.cacheNumKeys else keyId

/-- The key as the file has it, or one of the cache. -/
def firstKey (word : List Char) (k : ℕ) : UInt32 × ℕ :=
  if sw.onlyCacheHits then (.ofNat (draws k % sw.cacheNumKeys), k + 1) else (.ofNat (strtoul word), k)

def placedKey (isUpdate : Bool) (keyId : UInt32) (k : ℕ) : Except Failure (UInt32 × ℕ) :=
  if keyId.toNat < sw.cacheNumKeys then hotKey sw draws isUpdate keyId k else .ok (coldKey sw keyId, k)

/-- The fourth word. -/
def parseKey (isUpdate : Bool) (word : List Char) (k : ℕ) : Except Failure (UInt32 × ℕ) := do
  let (keyId, k) := firstKey sw draws word k
  let (keyId, k) ← placedKey sw draws isUpdate keyId k
  .ok (if sw.useASingleKey then 0 else keyId, k)

/-- The opcode of a request, with the home and the key it ended up with. -/
def Switches.opcode (isUpdate : Bool) (home : UInt8) (keyId : UInt32) : TraceOpcode :=
  if keyId.toNat < sw.cacheNumKeys then if isUpdate then .hotWrite else .hotRead
  else if isUpdate then if home.toNat = sw.machineId then .localWrite else .remoteWrite
  else if home.toNat = sw.machineId then .localRead else .remoteRead

/-- What has been read of a line: the homes, which are read only after they are set, and the command
once its last field is there. -/
structure Line where
  homeMachineId : UInt8
  homeWorkerId : UInt8
  cmd : Option Command

variable (hash : UInt32 → Bytes)

/-- What is done with the word number `wordCount` of line `i`. -/
def Line.word (isUpdate : Bool) (i wordCount : ℕ) (word : List Char) (x : Line) (k : ℕ) : Except Failure (Line × ℕ) :=
  match wordCount with
  | 1 => do
    let (home, k) ← parseMachine sw draws rounds i word k
    .ok ({ x with homeMachineId := home }, k)
  | 2 => do
    let (worker, k) ← parseWorker sw draws word k
    .ok ({ x with homeWorkerId := worker }, k)
  | 3 => do
    let (key, k) ← parseKey sw draws isUpdate word k
    let cmd := ⟨sw.opcode isUpdate x.homeMachineId key, x.homeMachineId, x.homeWorkerId, key, hash key⟩
    .ok ({ x with cmd := some cmd }, k)
  | _ => .ok (x, k)

/-- `if (word[strlen(word) - 1] == '\n') word[strlen(word) - 1] = 0` -/
def chop (word : List Char) : List Char := if word.getLast? = some '\n' then word.dropLast else word

/-- The loop over the words of line `i`. -/
def Line.wordLoop (isUpdate : Bool) (i : ℕ) : List (List Char) → ℕ → Line → ℕ → Except Failure (Line × ℕ)
  | [], _, x, k => .ok (x, k)
  | w :: ws, wordCount, x, k => do
    let (x, k) ← x.word sw draws rounds hash isUpdate i wordCount (chop w) k
    if ws = [] ∧ wordCount + 1 < 4 then .error (.words (wordCount + 1) i)
    else wordLoop isUpdate i ws (wordCount + 1) x k

/-- One line: the kind of request is drawn, then the words are read. -/
def parseLine (i : ℕ) (line : List Char) (k : ℕ) : Except Failure (Line × ℕ) :=
  Line.wordLoop sw draws rounds hash (draws k % 1000 < sw.writeRatio) i (strtok ' ' (cstr line)) 0 ⟨0, 0, none⟩ (k + 1)

/-- The loop over the lines, from line `i` on. -/
def parseLines : ℕ → List (List Char) → ℕ → Except Failure (List (Option Command) × ℕ)
  | _, [], k => .ok ([], k)
  | i, l :: ls, k => do
    let (x, k) ← parseLine sw draws rounds hash i l k
    let (xs, k) ← parseLines (i + 1) ls k
    .ok (x.cmd :: xs, k)

/-- The commands read from the file, in front of the `NOP`. `debug_cnt` counts the lines whose fourth
word was reached. -/
def parseTrace (file : List Char) : Except Failure (List Command) := do
  let lines := getlines file
  let (xs, _) ← parseLines sw draws rounds hash 0 lines 0
  if lines.length = xs.reduceOption.length then .ok xs.reduceOption else .error .count

end

end CcKvs.Traces
