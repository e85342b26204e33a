/-!
# Limits of the wire formats

These are fixed by the formats. The limits that a caller may choose are in `Settings`.
-/
namespace Marshal.Limits

-- Powers are those of the core library, whatever else is in scope.
attribute [local instance (high)] instPowNat

/-- The greatest number of characters in a signature, whose length D-Bus keeps in one byte. -/
def signatureLength : Nat := 255

/-- The greatest number of arrays inside one another, and of structs and dict entries inside one another. -/
def arrayDepth : Nat := 32
def structDepth : Nat := 32

/-- The greatest nesting of containers that is accepted unless a caller says otherwise. -/
def depth : Nat := 64

/-- The greatest number of bytes that the elements of a D-Bus array may take. -/
def arrayLength : Nat := 2 ^ (26 : Nat)

/-- The greatest size of a message unless a caller says otherwise. -/
def messageSize : Nat := 2 ^ (27 : Nat)

end Marshal.Limits
