import MarketFeed.BookSet.Basic
import MarketFeed.Decimal.Approximate
import MarketFeed.Decimal.Digits
import MarketFeed.Field.InPlace
import MarketFeed.PresenceMap.Packed
import MarketFeed.Scientific
import MarketFeed.Wire.Cursor
import MarketFeed.Yaml.Reading
import MarketFeed.Proofs.Progress
import MarketFeed.Proofs.Group.Resumption
import MarketFeed.Proofs.Stream.Resumption
import MarketFeed.Proofs.Stream.Drain
import MarketFeed.Proofs.Stream.Chunks
import MarketFeed.Proofs.Stream.Transcript
import MarketFeed.Proofs.Session.Receive
import MarketFeed.Proofs.Session.Forecast
import MarketFeed.Proofs.Session.Expectation
import MarketFeed.Proofs.PresenceMap
import MarketFeed.Proofs.Wire.Cost
import MarketFeed.Proofs.Wire.Contract
import MarketFeed.Proofs.Field.Value
import MarketFeed.Proofs.Field.Agreement
import MarketFeed.Proofs.Field.Cost
import MarketFeed.Proofs.Field.Relay
import MarketFeed.Proofs.Field.Omission
import MarketFeed.Proofs.Field.Acceptance
import MarketFeed.Proofs.Field.Atomicity
import MarketFeed.Proofs.Field.Contract
import MarketFeed.Proofs.Group.Agreement
import MarketFeed.Proofs.Message.Agreement
import MarketFeed.Proofs.Template
import MarketFeed.Proofs.Message.Filling
import MarketFeed.Proofs.Message.Copying
import MarketFeed.Proofs.Group.Relay
import MarketFeed.Proofs.Group.Contract
import MarketFeed.Proofs.Group.Errors
import MarketFeed.Proofs.Group.Bounds
import MarketFeed.Proofs.Group.Counting
import MarketFeed.Proofs.Message.Relay
import MarketFeed.Proofs.Stream.RoundTrip
import MarketFeed.Proofs.Stream.Failure
import MarketFeed.Proofs.Stream.Relay
import MarketFeed.Proofs.Message.Renewal
import MarketFeed.Proofs.Stream.Renewal
import MarketFeed.Proofs.Stream.Contract
import MarketFeed.Proofs.Stream.Refusal
import MarketFeed.Proofs.Stream.Slots
import MarketFeed.Proofs.Stream.Headway
import MarketFeed.Proofs.Stream.Handling
import MarketFeed.Proofs.Stream.Leftovers
import MarketFeed.Proofs.Stream.Invariant
import MarketFeed.Proofs.Stream.Decimals
import MarketFeed.Proofs.Session.Reset
import MarketFeed.Proofs.Arbiter.Runs
import MarketFeed.Proofs.Arbiter.Stalls
import MarketFeed.Proofs.Arbiter.Redundancy
import MarketFeed.Proofs.BookSet.History
import MarketFeed.Proofs.BookSet.Join
import MarketFeed.Proofs.Book.Apply
import MarketFeed.Proofs.Book.Heads
import MarketFeed.Proofs.Book.Depth
import MarketFeed.Proofs.BookSet.Rows
import MarketFeed.Proofs.BookSet.Snapshot
import MarketFeed.Proofs.BookSet.Activity
import MarketFeed.Proofs.BookSet.Live
import MarketFeed.Proofs.BookSet.Skips
import MarketFeed.Proofs.Session.Datagrams
import MarketFeed.Proofs.Session.Room
import MarketFeed.Proofs.Session.Supply
import MarketFeed.Proofs.BookSet.Moves
import MarketFeed.Proofs.BookSet.Delivery
import MarketFeed.Proofs.BookSet.Rejoin
import MarketFeed.Proofs.BookSet.Touched
import MarketFeed.Proofs.Book.Quotes
import MarketFeed.Proofs.Book.Order
import MarketFeed.Proofs.Book.Refusal
import MarketFeed.Proofs.Book.Best
import MarketFeed.Proofs.BookSet.Continuity
import MarketFeed.Proofs.BookSet.Redelivery
import MarketFeed.Proofs.BookSet.Reordering
import MarketFeed.Proofs.Message.Overwriting
import MarketFeed.Proofs.Session.Retention
import MarketFeed.Proofs.Arbiter.Gaps
import MarketFeed.Proofs.Book.Spread
import MarketFeed.Proofs.BookSet.Expected
import MarketFeed.Proofs.Layout
import MarketFeed.Proofs.Message.Settling
import MarketFeed.Proofs.Stream.Settling
import MarketFeed.Proofs.Decimal
import MarketFeed.Proofs.Book.Ticks
import MarketFeed.Proofs.Wire.Runs
import MarketFeed.Proofs.PresenceMap.Packed
import MarketFeed.Proofs.Wire.Presence
import MarketFeed.Proofs.Message.Bits
import MarketFeed.Proofs.Stream.Bits
import MarketFeed.Proofs.Session.Directions
import MarketFeed.Proofs.Session.Memory
import MarketFeed.Proofs.Stats
import MarketFeed.Proofs.Config
import MarketFeed.Proofs.BookSet.Index
