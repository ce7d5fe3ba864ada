import ZebraCrosslink.Chain.Network
import ZebraCrosslink.Rust.Codec
import ZebraCrosslink.Rust.Rounds

/-!
# Frames on a peer stream

`Codec::decode` takes messages from a buffer of received bytes. The bodies are parsed by `Parsers`.
-/

open Rust Reader

namespace ZebraCrosslink

def Network.magic : Network → Magic
  | Mainnet => magics.MAINNET
  | Testnet params => params.network_magic

/-- The message commands that `decode` knows. -/
inductive Command
  | Version | Verack | Ping | Pong | Reject | Addr | AddrV2 | GetAddr | Block | GetBlocks | Headers
  | GetHeaders | Inv | GetData | NotFound | Tx | Mempool | FilterLoad | FilterAdd | FilterClear
  deriving DecidableEq

namespace Command

def all : List Command :=
  [Version, Verack, Ping, Pong, Reject, Addr, AddrV2, GetAddr, Block, GetBlocks, Headers, GetHeaders,
    Inv, GetData, NotFound, Tx, Mempool, FilterLoad, FilterAdd, FilterClear]

def name : Command → List Char
  | Version => ['v', 'e', 'r', 's', 'i', 'o', 'n']
  | Verack => ['v', 'e', 'r', 'a', 'c', 'k']
  | Ping => ['p', 'i', 'n', 'g']
  | Pong => ['p', 'o', 'n', 'g']
  | Reject => ['r', 'e', 'j', 'e', 'c', 't']
  | Addr => ['a', 'd', 'd', 'r']
  | AddrV2 => ['a', 'd', 'd', 'r', 'v', '2']
  | GetAddr => ['g', 'e', 't', 'a', 'd', 'd', 'r']
  | Block => ['b', 'l', 'o', 'c', 'k']
  | GetBlocks => ['g', 'e', 't', 'b', 'l', 'o', 'c', 'k', 's']
  | Headers => ['h', 'e', 'a', 'd', 'e', 'r', 's']
  | GetHeaders => ['g', 'e', 't', 'h', 'e', 'a', 'd', 'e', 'r', 's']
  | Inv => ['i', 'n', 'v']
  | GetData => ['g', 'e', 't', 'd', 'a', 't', 'a']
  | NotFound => ['n', 'o', 't', 'f', 'o', 'u', 'n', 'd']
  | Tx => ['t', 'x']
  | Mempool => ['m', 'e', 'm', 'p', 'o', 'o', 'l']
  | FilterLoad => ['f', 'i', 'l', 't', 'e', 'r', 'l', 'o', 'a', 'd']
  | FilterAdd => ['f', 'i', 'l', 't', 'e', 'r', 'a', 'd', 'd']
  | FilterClear => ['f', 'i', 'l', 't', 'e', 'r', 'c', 'l', 'e', 'a', 'r']

def bytes (c : Command) : List UInt8 :=
  c.name.map (fun ch => UInt8.ofNat ch.toNat) ++ List.replicate (12 - c.name.length) 0

def of_bytes (command : Bytes 12) : Option Command := all.find? fun c => c.bytes = command.val

end Command

/-- What `decode` calls for a complete body: the checksum and the readers of the single messages. -/
structure Parsers (Message : Type) where
  checksum : List UInt8 → Bytes 4
  read : Command → UInt32 → List UInt8 → Except ReadError Message

structure CodecBuilder where
  network : Network
  version : UInt32
  max_len : Nat

inductive DecodeState
  | Head
  | Body (body_len : Nat) (command : Bytes 12) (checksum : Bytes 4)

structure Codec where
  builder : CodecBuilder
  state : DecodeState

namespace CodecBuilder

def CURRENT_NETWORK_PROTOCOL_VERSION : UInt32 := 170130

def new : CodecBuilder := ⟨.Mainnet, CURRENT_NETWORK_PROTOCOL_VERSION, MAX_PROTOCOL_MESSAGE_LEN⟩

def finish (builder : CodecBuilder) : Codec := ⟨builder, .Head⟩

end CodecBuilder

def HEADER_LEN : Nat := 24

structure MessageHeader where
  magic : Magic
  command : Bytes 12
  body_len : UInt32
  checksum : Bytes 4

def MessageHeader.read : Reader MessageHeader := do
  let magic ← exact 4
  let command ← exact 12
  let body_len ← u32
  let checksum ← exact 4
  pure { magic, command, body_len, checksum }

namespace Codec

variable {Message : Type} (parsers : Parsers Message) (codec : Codec) (src : List UInt8)

abbrev Decoded (Message : Type) : Type :=
  Except ReadError (Option Message) × Codec × List UInt8

def decode_body (body_len : Nat) (command : Bytes 12) (checksum : Bytes 4) : Decoded Message :=
  if src.length < body_len then (.ok none, codec, src)
  else
    let body := src.take body_len
    let src := src.drop body_len
    let codec := { codec with state := .Head }
    if checksum ≠ parsers.checksum body then
      (.error (.parse "supplied message checksum does not match computed checksum"), codec, src)
    else match Command.of_bytes command with
      | some c => ((parsers.read c codec.builder.version body).map some, codec, src)
      -- an unknown command is ignored
      | none => (.ok none, codec, src)

def decode : Decoded Message :=
  match codec.state with
  | .Head =>
    if src.length < HEADER_LEN then (.ok none, codec, src)
    else
      let header := src.take HEADER_LEN
      let src := src.drop HEADER_LEN
      match MessageHeader.read header with
      | .error err => (.error err, codec, src)
      | .ok (⟨magic, command, body_len, checksum⟩, _) =>
        if magic ≠ codec.builder.network.magic then
          (.error (.parse "supplied magic did not meet expectations"), codec, src)
        else if codec.builder.max_len < body_len.toNat then
          (.error (.parse "body length exceeded maximum size"), codec, src)
        else
          decode_body parsers { codec with state := .Body body_len.toNat command checksum } src
            body_len.toNat command checksum
  | .Body body_len command checksum => decode_body parsers codec src body_len command checksum

end Codec

end ZebraCrosslink
