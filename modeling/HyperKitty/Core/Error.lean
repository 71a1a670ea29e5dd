import HyperKitty.Lib.Exec

namespace HyperKitty

/-- The error type shared by every crate of the workspace. -/
inductive Error where
  | invalidRoute | unauthorizedRoute | routeConflict | noValidRoutes
  | invalidSignature | replayedNonce | proofFailed
  | invariantViolated (msg : String) | balanceViolated | entropyExceeded
  | invalidGlyph | invalidLedger | invalidWitness | invalidTick | invalidReceipt
  | parseError (msg : String) | lexerError (msg : String)
  | syntaxError (msg : String) | typeError (msg : String)
  | serializationError (msg : String) | deserializationError (msg : String)
  | hashMismatch | signatureMismatch | tamperDetected
  | storageError (msg : String) | chainBroken | recordNotFound
  | numericalError (msg : String) | matrixError (msg : String) | spectralError (msg : String)
  | notInitialized | alreadyInitialized | locked | timeout
  | custom (msg : String)
  deriving DecidableEq, Repr

def Error.display : Error → String
  | invalidRoute => "Invalid route"
  | unauthorizedRoute => "Unauthorized route"
  | routeConflict => "Route conflict"
  | noValidRoutes => "No valid routes"
  | invalidSignature => "Invalid signature"
  | replayedNonce => "Replayed nonce"
  | proofFailed => "Proof failed"
  | invariantViolated msg => "Invariant violated: " ++ msg
  | balanceViolated => "Balance violated"
  | entropyExceeded => "Entropy exceeded maximum"
  | invalidGlyph => "Invalid glyph"
  | invalidLedger => "Invalid ledger"
  | invalidWitness => "Invalid witness"
  | invalidTick => "Invalid tick"
  | invalidReceipt => "Invalid receipt"
  | parseError msg => "Parse error: " ++ msg
  | lexerError msg => "Lexer error: " ++ msg
  | syntaxError msg => "Syntax error: " ++ msg
  | typeError msg => "Type error: " ++ msg
  | serializationError msg => "Serialization error: " ++ msg
  | deserializationError msg => "Deserialization error: " ++ msg
  | hashMismatch => "Hash mismatch"
  | signatureMismatch => "Signature mismatch"
  | tamperDetected => "Tampering detected"
  | storageError msg => "Storage error: " ++ msg
  | chainBroken => "Chain broken"
  | recordNotFound => "Record not found"
  | numericalError msg => "Numerical error: " ++ msg
  | matrixError msg => "Matrix error: " ++ msg
  | spectralError msg => "Spectral error: " ++ msg
  | notInitialized => "Not initialized"
  | alreadyInitialized => "Already initialized"
  | locked => "Locked"
  | timeout => "Timeout"
  | custom msg => "Error: " ++ msg

end HyperKitty
