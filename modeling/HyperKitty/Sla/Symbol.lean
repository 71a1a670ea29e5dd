import HyperKitty.Core.Types

namespace HyperKitty.Sla

/-- One pass of the loop over the bytes of a symbol. -/
def hashByte (h : UInt64) (b : UInt8) : UInt64 := (h ^^^ b.toUInt64) * 0x100000001b3

/-- Stable symbol hash (FNV-1a inspired, deterministic). -/
def hashSymbol (s : String) : UInt64 := (asBytes s).foldl hashByte 0xcbf29ce484222325

end HyperKitty.Sla
