import HyperKitty.Lib.CString

namespace HyperKitty.Pipeline

open CString

structure PipelineState where
  stage : Nat
  input : List UInt8
  output : Option (List UInt8)
  expertMask : UInt32
  wormHash : List UInt8
  valid : Bool
  deriving DecidableEq

def PipelineState.alloc (input : List UInt8) : PipelineState where
  stage := 0
  input := input
  output := none
  expertMask := 0xFFFFFFFF
  wormHash := List.replicate 32 0
  valid := true

/-- A stage's verdict, with the state that it leaves. -/
abbrev Stage := PipelineState → Bool × PipelineState

def dangerous : List String := [
  "<!DOCTYPE", "<!ENTITY", "SYSTEM", "file://",
  "eval(", "exec(", "fork(", "__import__",
  "while (true)"]

def stage1Parser : Stage := fun ps =>
  if dangerous.any fun d => ascii d <:+: ps.input then (false, { ps with valid := false })
  else (true, ps)

/-- A stage that only asks whether the state is still valid. -/
def stub : Stage := fun ps => (ps.valid, ps)

def stage2Ast : Stage := stub

def stage3Graph : Stage := stub

def stage4Jordan : Stage := stub

def stage5Jacobian : Stage := stub

def stage6Constraints : Stage := fun ps =>
  if ps.valid then (true, { ps with expertMask := 0xFFFFFFFF }) else (false, ps)

def stage7Activation : Stage := stub

def bit (i : Nat) : UInt32 := 1 <<< UInt32.ofNat i

def popcount (mask : UInt32) : Nat := (List.range 32).countP fun i => mask &&& bit i ≠ 0

/-- One expert against those behind it: the active ones in its class modulo 3 are
suppressed. -/
def suppress (filtered : UInt32) (i : Nat) : UInt32 :=
  if filtered &&& bit i = 0 then filtered
  else
    (List.range' (i + 1) (32 - (i + 1))).foldl (fun filtered j =>
      if filtered &&& bit j = 0 then filtered
      else if i % 3 = j % 3 then filtered &&& ~~~ bit j
      else filtered) filtered

def stage8Nand : Stage := fun ps =>
  if ps.valid then (true, { ps with expertMask := (List.range 32).foldl suppress ps.expertMask })
  else (false, ps)

def stage9Dispatch : Stage := fun ps =>
  if ps.valid then
    let text := ascii "[ROUTING_OUTPUT: " ++ decimal (popcount ps.expertMask) ++
      ascii "_experts_executed]"
    (true, { ps with output := some (Buffer.cString (snprintf (List.replicate 256 0) text).2) })
  else (false, ps)

def stage10Merge : Stage := fun ps =>
  if ps.valid then (true, { ps with output := some (ps.output.getD (ascii "[MERGED_OUTPUT]")) })
  else (false, ps)

inductive PipelineStatus where
  | ok | rejected | error
  deriving DecidableEq, Repr

structure PipelineReceipt where
  status : PipelineStatus
  error : Option String
  output : Option (List UInt8)
  expertMask : UInt32
  entropy : ℚ
  wormHash : List UInt8
  deriving DecidableEq

def PipelineReceipt.failed (status : PipelineStatus) (error : String) : PipelineReceipt where
  status := status
  error := some error
  output := none
  expertMask := 0
  entropy := 0
  wormHash := List.replicate 32 0

def stages : List Stage := [
  stage1Parser, stage2Ast, stage3Graph, stage4Jordan, stage5Jacobian, stage6Constraints,
  stage7Activation, stage8Nand, stage9Dispatch, stage10Merge]

/-- All stages are executed, and all of them have to agree. -/
def execute (ps : PipelineState) : Bool × PipelineState :=
  stages.foldl (fun (ok, ps) stage => (ok && (stage ps).1, (stage ps).2)) (true, ps)

/-- The hash of the output, byte by byte, in 64 bits. -/
def outputHash (output : List UInt8) : UInt64 :=
  output.foldl (fun hash b => ((hash <<< 5) + hash) + b.toUInt64) 5381

def wormHash (hash : UInt64) : List UInt8 :=
  (List.range 32).map fun i => (hash >>> UInt64.ofNat (i % 8)).toUInt8

def routingPipelineExecute : Option (List UInt8) → PipelineReceipt
  | none => .failed .error "null_input"
  | some input =>
    let (stagesOk, ps) := execute (.alloc input)
    if !stagesOk || !ps.valid then .failed .rejected "stage_failed"
    else
      { status := .ok
        error := none
        output := ps.output
        expertMask := ps.expertMask
        entropy := 0
        wormHash := wormHash (outputHash (ps.output.getD [])) }

end HyperKitty.Pipeline
