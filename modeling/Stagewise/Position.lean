/-
Where a declaration or member stands in its source, and the handles by
which a compilation refers to its declarations, dependency nodes and
composition nodes. A handle is an index into the list that holds the
thing, and means nothing outside the compilation that made it.

Lines, columns and handles have 32 bits. A number given from outside is
taken by `ofNat`, which drops the bits above; the handles a compilation
makes are positions in its own lists and need no cut.
-/
namespace Stagewise

-- ========================================================= 32-bit numbers

/-- A number without the bits above its lowest 32. -/
def low32 (n : Nat) : Nat := n % 4294967296

theorem low32_lt (n : Nat) : low32 n < 4294967296 :=
  Nat.mod_lt n (by decide)

theorem low32_of_lt {n : Nat} (h : n < 4294967296) : low32 n = n :=
  Nat.mod_eq_of_lt h

-- ============================================================= positions

/-- A line and column, both counted from one. Line zero belongs to what
the compiler made itself. -/
structure Position where
  line : Nat
  column : Nat
  deriving DecidableEq, Inhabited, Repr

namespace Position

/-- The position of a line and column given from outside. -/
def ofNat (line column : Nat) : Position := ⟨low32 line, low32 column⟩

/-- The position of a generated member. -/
def generated : Position := ⟨0, 0⟩

def isGenerated (p : Position) : Bool := p.line == 0

def text (p : Position) : String :=
  if p.isGenerated then "<generated>"
  else toString p.line ++ ":" ++ toString p.column

end Position

-- =============================================================== handles

/-- A declaration among the sources. -/
structure DeclId where
  index : Nat
  deriving DecidableEq, Inhabited, Repr

/-- A stage or method group in the dependency graph. -/
structure DependencyId where
  index : Nat
  deriving DecidableEq, Inhabited, Repr

/-- A node of the composition tree. -/
structure CompositionId where
  index : Nat
  deriving DecidableEq, Inhabited, Repr

/-- The handle of a number given from outside. -/
def DeclId.ofNat (n : Nat) : DeclId := ⟨low32 n⟩

/-- The handle of a number given from outside. -/
def DependencyId.ofNat (n : Nat) : DependencyId := ⟨low32 n⟩

/-- The handle of a number given from outside. -/
def CompositionId.ofNat (n : Nat) : CompositionId := ⟨low32 n⟩

def DeclId.text (i : DeclId) : String := "decl_" ++ toString i.index

def DependencyId.text (i : DependencyId) : String := "dep_" ++ toString i.index

def CompositionId.text (i : CompositionId) : String :=
  "node_" ++ toString i.index

/-- A field or method of a declaration, by its position in the list of
fields or methods. Members are only ever appended before merging, so a
location stays valid until then. -/
structure Location where
  decl : DeclId
  index : Nat
  deriving DecidableEq, Inhabited, Repr

end Stagewise
