import ScaleCalls.Metadata.Snapshot
import ScaleCalls.Solidity.UnitText

/-!
# The calls contract

A contract that lists all calls in one enum and gives the two index bytes of each.

## Main definitions

- `CallEntry` — one call
- `CallsContract.text` — the file of the contract
-/

namespace ScaleCalls.Solidity

/-- A call in the contract, by its member of the enum. -/
structure CallEntry where
  member : String
  index : CallIndex
  qualified : String
  deriving Repr, DecidableEq

namespace CallsContract

/-- The test for one call; all but the first follow an `else`. -/
def branch (position : Nat) (entry : CallEntry) : Code :=
  let otherwise := if position = 0 then "" else "else "
  .line <| s!"{otherwise}if (c == Call.{entry.member}) return " ++
    s!"({entry.index.group.toNat}, {entry.index.call.toNat}); // {entry.qualified}"

def lastBranch (entries : List CallEntry) : Code :=
  .line ((if entries.isEmpty then "" else "else ") ++ "revert(\"Unknown call\");")

def code (name : String) (entries : List CallEntry) (header : Header) : List Code :=
  header.code ++
    [.block s!"contract {name}"
      [.block "enum Call" (enumLines (entries.map CallEntry.member)),
        .blank,
        .block ("function indices(Call c) public pure " ++
            "returns (uint8 palletIndex, uint8 callIndex)")
          (entries.zipIdx.map (fun e => branch e.2 e.1) ++ [lastBranch entries])]]

def text (name : String) (entries : List CallEntry) (header : Header) : String :=
  Code.text (code name entries header)

end CallsContract

end ScaleCalls.Solidity
