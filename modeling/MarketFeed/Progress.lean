import MarketFeed.Wire.Outcome

/-!
# Reads that can be resumed

Something longer than a token is read into a state that is kept when the bytes run dry, together
with the place to go on from.
-/

namespace MarketFeed

inductive Ending (κ : Type) where
  | done
  | dry (place : κ)
  | garbled (error : DecodeError)
deriving DecidableEq, Repr

/-- How far a read got: the state it left, how it ended, and the bytes it did not use. -/
structure Progress (σ κ : Type) where
  state : σ
  ending : Ending κ
  rest : List UInt8
deriving Repr

namespace Ending

def mapPlace {κ μ : Type} (f : κ → μ) : Ending κ → Ending μ
  | .done => .done
  | .dry place => .dry (f place)
  | .garbled e => .garbled e

end Ending

namespace Progress

/-- The read as a part of something larger: `f` puts the state into it, `g` the place. -/
def within {σ τ κ μ : Type} (p : Progress σ κ) (f : σ → τ) (g : κ → μ) : Progress τ μ where
  state := f p.state
  ending := p.ending.mapPlace g
  rest := p.rest

end Progress

end MarketFeed
