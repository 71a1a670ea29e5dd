import HyperKitty.Lib.Floating

namespace HyperKitty.Gate

variable (K : Type*)

/-- `δ_A + δ_E = δ_L + δ_R`. -/
structure AccountingLedger where
  asset : F64 K
  equity : F64 K
  liability : F64 K
  revenue : F64 K

/-- `I(X_t) = I(X_{t+1})`, with as many numbers in an array as the dimension says. -/
structure InvariantPair where
  dimension : Int
  current : Option (Fin dimension.toNat → F64 K)
  next : Option (Fin dimension.toNat → F64 K)

/-- `valid` is set where the certificate was verified. -/
structure ProofCertificate where
  valid : Int

structure Context where
  ledger : AccountingLedger K
  invariant : InvariantPair K
  entropy : F64 K
  proof : ProofCertificate

variable {K} [Field K] [LinearOrder K]

def balanceTolerance : K := 1e-10

def invariantTolerance : K := 1e-8

def entropyThreshold : K := 0.20

def checkAccountingBalance (ledger : AccountingLedger K) : Bool :=
  let lhs := ledger.asset + ledger.equity
  let rhs := ledger.liability + ledger.revenue
  decide (F64.fabs (lhs - rhs) < .finite balanceTolerance)

/-- The loop fails at the first pair whose distance exceeds the tolerance. -/
def checkInvariantPreserved (inv : InvariantPair K) : Bool :=
  match inv.current, inv.next with
  | some current, some next =>
    (List.finRange inv.dimension.toNat).all fun i =>
      !decide (.finite invariantTolerance < F64.fabs (current i - next i))
  | _, _ => false

def checkEntropyBound (entropy : F64 K) : Bool := decide (entropy ≤ .finite entropyThreshold)

def checkProofExists (cert : ProofCertificate) : Bool := cert.valid != 0

def constraintCheckAll : Option (Context K) → Int
  | none => 0
  | some ctx =>
    let balanceOk := checkAccountingBalance ctx.ledger
    let invariantOk := checkInvariantPreserved ctx.invariant
    let entropyOk := checkEntropyBound ctx.entropy
    let proofOk := checkProofExists ctx.proof
    if balanceOk && invariantOk && entropyOk && proofOk then 1 else 0

end HyperKitty.Gate
