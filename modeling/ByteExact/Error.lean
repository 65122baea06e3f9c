import ByteExact.Config.Fault
/-!
# Errors

The causes for which an operation on a value, a stream or a configuration is refused. An error is
its cause; the wording is one function of it, `Error.message`.
-/
namespace ByteExact

/-- The kinds of failure that a stream reports. -/
inductive IoKind
  | notFound | alreadyExists | permissionDenied
  | connectionRefused | connectionReset | connectionAborted | notConnected
  | hostUnreachable | networkUnreachable | networkDown
  | addressInUse | addressUnavailable
  | notDirectory | isDirectory | directoryNotEmpty | invalidFilename | tooManyLinks
  | crossesDevices | readOnlyFilesystem | staleHandle | notSeekable
  | storageFull | quotaExceeded | fileTooLarge | resourceBusy | executableBusy
  | invalidInput | invalidData | argumentListTooLong
  | timedOut | wouldBlock | deadlock | interrupted | outOfMemory
  /-- The other end no longer takes what is written. -/
  | brokenPipe
  /-- Nothing was written although something was offered. -/
  | writeZero
  /-- The data ended before everything asked for was there. -/
  | unexpectedEnd
  | unsupported
  | other
  deriving DecidableEq, Repr

/-- A failure of a stream, or of a buffer read as one. -/
inductive IoFault
  /-- A buffer holds fewer bytes than are asked for. -/
  | shortRead (wanted available : Nat)
  /-- A source ended before it gave every byte asked for. -/
  | sourceEnded
  /-- A sink took no byte although it was offered some. -/
  | sinkStalled
  /-- A failure that the stream itself reports. -/
  | reported (kind : IoKind) (text : String)
  deriving DecidableEq, Repr

namespace IoFault

def kind : IoFault → IoKind
  | shortRead .. => .unexpectedEnd
  | sourceEnded => .unexpectedEnd
  | sinkStalled => .writeZero
  | reported kind _ => kind

def message : IoFault → String
  | shortRead wanted available =>
    "short read: need " ++ toString wanted ++ " bytes, " ++ toString available ++ " available"
  | sourceEnded => "failed to fill whole buffer"
  | sinkStalled => "failed to write whole buffer"
  | reported _ text => text

end IoFault

/-- Why a value cannot be encoded, or a target cannot be decoded into. -/
inductive ArgumentFault
  /-- A value is absent where one is required. -/
  | noValue
  /-- A decode target stands behind a shared reference. -/
  | notWritable
  /-- A fault in a caller's own words. -/
  | stated (text : String)
  deriving DecidableEq, Repr

def ArgumentFault.message : ArgumentFault → String
  | .noValue => "no value provided"
  | .notWritable => "decode target is not a writable reference"
  | .stated text => text

inductive Error
  | io (fault : IoFault)
  /-- A type without a fixed width, by its name. -/
  | unsupportedType (name : String)
  | invalidArgument (fault : ArgumentFault)
  /-- A value of so many bytes is larger than allowed. -/
  | oversizedValue (bytes : Nat)
  | config (fault : Config.Fault)
  deriving DecidableEq, Repr

namespace Error

/-- The wording of an error. -/
def message : Error → String
  | io fault => "I/O error: " ++ fault.message
  | unsupportedType name => "binary: unsupported type: " ++ name
  | invalidArgument fault => "binary: invalid argument: " ++ fault.message
  | oversizedValue bytes => "Value too large: " ++ toString bytes ++ " bytes"
  | config fault => "Configuration error: " ++ fault.message

/-- Whether a sink, source or buffer ran out of bytes (`is_short_read`). -/
def isShortRead : Error → Bool
  | io fault => fault.kind == .unexpectedEnd
  | _ => false

/-- The refusal of an absent value. -/
abbrev noValue : Error := .invalidArgument .noValue

/-- The refusal of a target behind a shared reference. -/
abbrev notWritable : Error := .invalidArgument .notWritable

/-- The refusal of a read of `wanted` bytes from a buffer of `available` (`short_read`). -/
abbrev shortRead (wanted available : Nat) : Error := .io (.shortRead wanted available)

end Error

end ByteExact
