import HyperKitty.Lib.CString

namespace HyperKitty.Bus

open Exec CString

abbrev maxBody : Nat := 8192

instance neZero_type : NeZero 32 := ⟨by decide⟩

instance neZero_id : NeZero 64 := ⟨by decide⟩

instance neZero_topic : NeZero 128 := ⟨by decide⟩

instance neZero_body : NeZero maxBody := ⟨by decide⟩

structure Message where
  msgType : CString 32
  msgFrom : CString 64
  msgTo : CString 64
  topic : CString 128
  corr : UInt64
  body : CString maxBody
  deriving DecidableEq

def quote : UInt8 := 0x22

def backslash : UInt8 := 0x5C

/-- The text of a message, none of whose fields is escaped. -/
def Message.text (m : Message) : List UInt8 :=
  ascii "\x7b\"type\":\"" ++ m.msgType.bytes ++ ascii "\",\"from\":\"" ++ m.msgFrom.bytes ++
    ascii "\",\"to\":\"" ++ m.msgTo.bytes ++ ascii "\",\"topic\":\"" ++ m.topic.bytes ++
    ascii "\",\"corr\":" ++ decimal m.corr.toNat ++ ascii ",\"body\":\"" ++ m.body.bytes ++
    ascii "\"\x7d"

/-- The length of the text and the buffer it is written to. The failure is the
result −1, as below. -/
def msgEncode : Option Message → Option (List UInt8) → Exec Unit (Nat × List UInt8)
  | some m, some out => if out.length = 0 then fail () else pure (snprintf out m.text)
  | _, _ => fail ()

/-- Copy what fits of the text behind the key. The data end where `stop` bytes of
the memory are left. -/
def extractStr (p : List UInt8) (stop : Int) (key : List UInt8) (cap : Nat) [NeZero cap] :
    Exec Unit (Option (CString cap × List UInt8)) := do
  let needle := ascii "\"" ++ key ++ ascii "\":\""
  match ← strstr needle p with
  | none => pure none
  | some found =>
    if found.length ≤ stop then pure none
    else
      let val := found.drop needle.length
      match ← strchr quote val with
      | none => pure none
      | some closing =>
        if closing.length ≤ stop then pure none
        else pure (some (copy cap (val.take (val.length - closing.length)), closing.drop 1))

def extractU64 (p : List UInt8) (stop : Int) (key : List UInt8) :
    Exec Unit (Option (UInt64 × List UInt8)) := do
  let needle := ascii "\"" ++ key ++ ascii "\":"
  match ← strstr needle p with
  | none => pure none
  | some found =>
    if found.length ≤ stop then pure none
    else
      let (value, endptr) ← strtoull (found.drop needle.length)
      pure (some (value, endptr))

/-- Scan for the closing quote of the body; a quote behind a backslash is skipped. -/
def scanBody (stop : Int) : List UInt8 → Exec Unit (List UInt8)
  | [] => if 0 ≤ stop then pure [] else .error .panic
  | b :: bs =>
    if (b :: bs).length ≤ stop ∨ b = 0 then pure (b :: bs)
    else if b = backslash then
      match bs with
      | [] => .error .panic
      | c :: cs => if c = quote then scanBody stop cs else scanBody stop (c :: cs)
    else if b = quote then pure (b :: bs)
    else scanBody stop bs

def extractBody (p : List UInt8) (stop : Int) : Exec Unit (Option (CString maxBody)) := do
  let needle := ascii "\"body\":\""
  match ← strstr needle p with
  | none => pure none
  | some found =>
    if found.length ≤ stop then pure none
    else
      let bp := found.drop needle.length
      let be ← scanBody stop bp
      pure (some (copy maxBody (bp.take (bp.length - be.length))))

/-- A field of the message that is not found stays as it was cleared. -/
def msgDecode : Option (List UInt8) → Nat → Exec Unit Message
  | none, _ => fail ()
  | some data, len => do
    if len = 0 then fail ()
    else
      let stop : Int := data.length - len
      let msgType ← extractStr data stop (ascii "type") 32
      let msgFrom ← extractStr data stop (ascii "from") 64
      let msgTo ← extractStr data stop (ascii "to") 64
      let topic ← extractStr data stop (ascii "topic") 128
      let corr ← extractU64 data stop (ascii "corr")
      let body ← extractBody data stop
      pure
        { msgType := (msgType.map Prod.fst).getD (empty 32)
          msgFrom := (msgFrom.map Prod.fst).getD (empty 64)
          msgTo := (msgTo.map Prod.fst).getD (empty 64)
          topic := (topic.map Prod.fst).getD (empty 128)
          corr := (corr.map Prod.fst).getD 0
          body := body.getD (empty maxBody) }

end HyperKitty.Bus
