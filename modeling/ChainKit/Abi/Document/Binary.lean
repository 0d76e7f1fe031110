import ChainKit.Abi.Standard

namespace ChainKit.Abi.Document

/-- The document as it is packed: the later list may not be present without the earlier one. -/
def withVariants (d : Document) : Document :=
  if d.actionResults?.isSome ∧ d.variants?.isNone then { d with variants? := some [] } else d

def pack (c : Config) (d : Document) : Except Error Bytes :=
  Standard.abiDefContract.encode c Standard.abiDefType d.withVariants.toJson

def unpack (c : Config) (bs : Bytes) : Except Error Document := do
  let v ← Standard.abiDefContract.decode c Standard.abiDefType bs
  match ofJson? v with
  | some d => return d
  | none => throw (.schema .malformedBinary)

end ChainKit.Abi.Document
