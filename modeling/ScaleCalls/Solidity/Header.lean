import ScaleCalls.Solidity.Code

/-!
# The head of generated files

Every generated file starts with where its content comes from and with the
compiler versions that accept it.
-/

namespace ScaleCalls.Solidity

/-- Where generated code comes from. -/
structure Header where
  chain : String
  specName : String
  specVersion : Nat
  source : String
  /-- The accepted compiler versions. -/
  pragma : String
  deriving Repr, DecidableEq

def Header.code (header : Header) : List Code :=
  [.line s!"// Auto-generated from {header.chain} ({header.specName} v{header.specVersion})",
    .line s!"// Source: {header.source}",
    .line s!"pragma solidity {header.pragma};",
    .blank]

end ScaleCalls.Solidity
