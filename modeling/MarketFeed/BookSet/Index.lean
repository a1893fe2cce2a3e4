import MarketFeed.BookSet.Basic
import Mathlib.Init

/-!
# Indexed books

Books are found by tables that are made once, out of the configuration. A set of books is one word,
in which every book has a bit of its own.
-/

namespace MarketFeed

/-- The positions of books by their ids and by their symbols. -/
structure BookIndex where
  byId : Std.HashMap UInt64 Nat := ∅
  bySymbol : Std.HashMap (List UInt8) Nat := ∅

namespace BookIndex

/-- Enters a book at a position, over any that is found by the same id or the same symbol. -/
def enter (index : BookIndex) (c : BookConfig) (i : Nat) : BookIndex where
  byId := index.byId.insert c.securityId i
  bySymbol := index.bySymbol.insert (utf8Bytes c.symbol) i

/-- Enters the books in turn. -/
def ofConfigs (configs : List BookConfig) : BookIndex :=
  configs.zipIdx.foldl (fun index (c, i) => index.enter c i) {}

/-- The position of the book that is meant; an id counts for more than a symbol. -/
def find? (index : BookIndex) (id : Option UInt64) (symbol : Option (List UInt8)) : Option Nat :=
  match id with
  | some id => index.byId[id]?
  | none => symbol.bind (index.bySymbol[·]?)

end BookIndex

/-- The bit of the book at a position. -/
def bookBit (i : Nat) : UInt64 := 1 <<< UInt64.ofNat i

end MarketFeed
