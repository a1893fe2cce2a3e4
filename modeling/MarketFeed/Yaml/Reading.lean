import MarketFeed.Config.Basic
import MarketFeed.Yaml.Address
import MarketFeed.Yaml.Document

/-!
# Configurations in YAML

What the nodes of a document have to be for it to be a configuration. Keys that mean nothing are
passed over, one that means something may be left out if it has a default, and none comes twice.
-/

namespace MarketFeed

namespace FeedKind

def ofName? : String → Option FeedKind
  | "increment" => some increment
  | "snapshot" => some snapshot
  | _ => none

/-- Reads the name of a kind, or a mapping that gives null under this name. -/
def ofYaml? : Yaml → Option FeedKind
  | .mapping [(name, value)] =>
    if value.standsForNull then name.text?.bind ofName? else none
  | y => y.text?.bind ofName?

end FeedKind

namespace Transport

def ipv4? (y : Yaml) : Option Ipv4 := y.words?.bind Ipv4.parse?

def portNumber? (y : Yaml) : Option UInt16 := (y.natBelow? 0x10000).map UInt16.ofNat

/-- The transport of this type; other types have no transport. -/
def ofEntries? (type : String) (es : List (String × Yaml)) : Option Transport :=
  match type with
  | "multicast" => do
    let group ← Yaml.required es "group" ipv4?
    let port ← Yaml.required es "port" portNumber?
    let interface ← Yaml.optional es "interface" .unspecified ipv4?
    let source ← Yaml.optional es "source" none (Yaml.nullable? ipv4?)
    return .multicast group port interface source
  | "tcp" => (Yaml.required es "address" fun y => y.words?.bind Endpoint.parse?).map .tcp
  | "file" => (Yaml.required es "path" Yaml.words?).map .file
  | _ => none

/-- The entries that a transport of this type has, in the order in which a sequence lists them. -/
def keys (type : String) : List String :=
  match type with
  | "multicast" => ["group", "port", "interface", "source"]
  | "tcp" => ["address"]
  | "file" => ["path"]
  | _ => []

/-- The name that a key stands for: itself, or the one that `keys` has at this place. -/
def name? (keys : List String) : Yaml → Option String
  | .quoted t => some t
  | .plain t =>
    match Yaml.sense t with
    | .text => some t
    | .integer _ => (Yaml.unsigned? t.toList).map fun n => keys.getD n t
    | _ => none
  | _ => none

/-- The entries of a transport of this type by their names, none of which may come twice. -/
def named? (type : String) (es : List (Yaml × Yaml)) : Option (List (String × Yaml)) := do
  let names ← es.mapM fun (key, _) => name? (keys type) key
  if names.Nodup then some (names.zip (es.map (·.2))) else none

/-- How deep collections may be nested in a transport, itself included. -/
def depthLimit : Nat := 125

/--
Reads a mapping in which the type of the transport is named, or a sequence that begins with it. All
of it is kept until the type is known.
-/
def ofYaml? (y : Yaml) : Option Transport :=
  if y.isStorable depthLimit then
    match y with
    | .mapping es => do
      let (_, type) ← es.find? fun (key, _) => key.text? == some "type"
      let type ← type.text?
      ofEntries? type (← named? type es)
    | .sequence (type :: values) => do
      let type ← type.text?
      if (keys type).length < values.length then none
      else ofEntries? type ((keys type).zip values)
    | _ => none
  else none

end Transport

def FeedConfig.ofYaml? (y : Yaml) : Option FeedConfig := do
  let es ← y.entries?
  return {
    name := ← Yaml.required es "name" Yaml.words?
    kind := ← Yaml.required es "kind" FeedKind.ofYaml?
    transport := ← Yaml.required es "transport" Transport.ofYaml?
    blocking := ← Yaml.optional es "blocking" false Yaml.bool?
    preambleBytes := ← Yaml.optional es "preamble_bytes" 0 (Yaml.natBelow? 0x10000000000000000)
    resetOnReset := ← Yaml.optional es "reset_on_reset_message" true Yaml.bool? }

def Decimal.ofYaml? (y : Yaml) : Option Decimal := do
  let es ← y.entries?
  let word (y : Yaml) : Option Int64 := y.int?.bind toInt64?
  return ⟨← Yaml.required es "mantissa" word, ← Yaml.required es "exponent" word⟩

def word64? (y : Yaml) : Option UInt64 := (y.natBelow? 0x10000000000000000).map UInt64.ofNat

def BookConfig.ofYaml? (y : Yaml) : Option BookConfig := do
  let es ← y.entries?
  return {
    symbol := ← Yaml.required es "symbol" Yaml.words?
    securityId := ← Yaml.required es "security_id" word64?
    depth := ← Yaml.optional es "depth" defaultDepth (Yaml.natBelow? 0x10000000000000000)
    tick := ← Yaml.required es "tick" Decimal.ofYaml?
    tradingSession := ← Yaml.optional es "trading_session" none (Yaml.nullable? Yaml.words?) }

def SyncConfig.ofYaml? (y : Yaml) : Option SyncConfig := do
  let es ← y.entries?
  return {
    autoRecover := ← Yaml.optional es "auto_recover" true Yaml.bool?
    maxJoinPolls := ← Yaml.optional es "max_join_polls" none (Yaml.nullable? word64?) }

namespace Config

def ofYaml? (y : Yaml) : Option Config := do
  let es ← y.entries?
  return {
    feeds := ← Yaml.required es "feeds" fun y => y.items?.bind (·.mapM FeedConfig.ofYaml?)
    books := ← Yaml.required es "books" fun y => y.items?.bind (·.mapM BookConfig.ofYaml?)
    sync := ← Yaml.optional es "sync" {} SyncConfig.ofYaml? }

/-- The configuration that a text stands for, if it stands for one. -/
def ofYamlText? (text : String) : Option Config := (Yaml.parse? text).bind ofYaml?

end Config

end MarketFeed
