import HyperKitty.WormStorage.Entry

namespace HyperKitty.WormStorage

open Exec Bytes

def zeroHash : Hash := Vector.replicate hashSize 0

/-- The stub of the source, which combines the two hashes byte by byte. -/
def computeChainHash (prevHash contentHash : Hash) : Hash :=
  Vector.zipWith (· ^^^ ·) prevHash contentHash

/-- The loop of `verifyChain` with the chain hash of the entry before. -/
def verifyLoop (prevChainHash : Hash) : List WormEntry → Bool
  | [] => true
  | e :: es =>
    if computeChainHash prevChainHash e.contentHash ≠ e.chainHash then false
    else verifyLoop e.chainHash es

def verifyChain (entries : List WormEntry) : Bool := verifyLoop zeroHash entries

/-- The loop of `writeFile` from entry `i` on, each entry written with the time
that the clock shows then. -/
def writeLoop (clock : Nat → UInt64) : Nat → List WormEntry → OrNull (List UInt8)
  | _, [] => pure []
  | i, e :: es => do
    let entryBuf ← e.serialize (clock i)
    let rest ← writeLoop clock (i + 1) es
    pure (entryBuf ++ rest)

/-- The contents of the file that is written. -/
def writeFile (clock : Nat → UInt64) (entries : List WormEntry) : OrNull (List UInt8) :=
  if entries.length = 0 then fail () else writeLoop clock 0 entries

/-- The entries that were read, and what of the file is left to read. -/
structure ReadState where
  entries : List WormEntry
  rest : List UInt8

def maxEntries : Nat := 1024

/-- One pass of the loop of `readFile`. A record that does not deserialize is left out. -/
def readPass (s : ReadState) : OrNull (Step ReadState (List WormEntry)) :=
  let header := s.rest.take wormHeaderSize
  if s.entries.length < maxEntries ∧ header.length = wormHeaderSize then do
    let l ← readLengths header
    let rest := s.rest.drop wormHeaderSize
    let varBuf := rest.take l.varLen
    if varBuf.length ≠ l.varLen then pure (.done s.entries)
    else
      match WormEntry.deserialize (header ++ varBuf) with
      | .ok e => pure (.next ⟨s.entries ++ [e], rest.drop l.varLen⟩)
      | .error (.error ()) => pure (.next ⟨s.entries, rest.drop l.varLen⟩)
      | .error fault => .error fault
  else pure (.done s.entries)

/-- Every pass consumes a header, so that the bytes of the file bound the passes. -/
def readFile (content : List UInt8) : OrNull (List WormEntry) :=
  loop (content.length + 1) readPass ⟨[], content⟩

end HyperKitty.WormStorage
