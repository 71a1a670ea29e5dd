import HyperKitty.Core.Error
import HyperKitty.Core.Types

namespace HyperKitty.Ere

structure EreReceipt where
  hash : Hash
  p1Pass : Bool
  p2Pass : Bool
  p3Pass : Bool
  p4Pass : Bool
  artifactId : String
  artifactHash : Hash
  deriving DecidableEq, Repr

namespace EreReceipt

def verify (r : EreReceipt) : Bool := r.p1Pass && r.p2Pass && r.p3Pass && r.p4Pass

def gateStatus (r : EreReceipt) : Bool × Bool × Bool × Bool :=
  (r.p1Pass, r.p2Pass, r.p3Pass, r.p4Pass)

end EreReceipt

/-- The statuses of the gates in the upper half of a byte. -/
def gateByte (p1 p2 p3 p4 : Bool) : UInt8 :=
  p1.toUInt8 <<< 7 ||| p2.toUInt8 <<< 6 ||| p3.toUInt8 <<< 5 ||| p4.toUInt8 <<< 4

/-- What the receipt's hash is taken over. -/
def preimage (artifactId artifact intent : String) (p1 p2 p3 p4 : Bool) : List UInt8 :=
  asBytes artifactId ++ asBytes "||" ++ asBytes intent ++ asBytes "||" ++ asBytes artifact ++
    asBytes "||" ++ [gateByte p1 p2 p3 p4]

variable (sha256 : List UInt8 → Hash)

/-- A receipt, if all gates have passed. -/
def computeP5 (artifactId artifact intent : String) (p1 p2 p3 p4 : Bool) :
    Except Error EreReceipt :=
  if !p1 || !p2 || !p3 || !p4 then .error .proofFailed
  else
    .ok
      { hash := sha256 (preimage artifactId artifact intent p1 p2 p3 p4)
        p1Pass := p1
        p2Pass := p2
        p3Pass := p3
        p4Pass := p4
        artifactId := artifactId
        artifactHash := sha256 (asBytes artifact) }

end HyperKitty.Ere
