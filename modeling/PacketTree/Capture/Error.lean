import PacketTree.Files.Error

/-!
# Errors of captures

Why packets cannot be read any further: the file fails, or what is in it does not follow the format.
-/

namespace PacketTree

/-- The formats of capture files. -/
inductive CaptureFormat where
  /-- A header and a record for each packet. -/
  | pcap
  /-- Sections made of blocks. -/
  | pcapng
deriving DecidableEq, Repr

/-- What is wrong with the bytes of a capture file. -/
inductive FormatProblem where
  /-- The file does not start like any capture file. -/
  | notRecognized
  /-- The start of the file is cut, and so many bytes are missing. -/
  | incomplete (missing : Nat)
  /-- The file ends inside a record or block. -/
  | endsEarly
  /-- A record or block is too large to be read. -/
  | tooLarge
  /-- A block contradicts itself. -/
  | inconsistent
deriving DecidableEq, Repr

/-- Why no more packets come. -/
inductive CaptureError where
  /-- The file cannot be read. -/
  | file (e : FileError)
  /-- The bytes do not follow the format; `opening` tells whether already the start does not. -/
  | format (f : CaptureFormat) (opening : Bool) (problem : FormatProblem)
  /-- The source of the packets gives another reason. -/
  | other (reason : String)
deriving DecidableEq, Repr

/-- The problem in words. -/
def FormatProblem.message : FormatProblem → String
  | .notRecognized => "Header not recognized as PCAP or PCAPNG"
  | .incomplete missing => "Incomplete read: " ++ toString missing
  | .endsEarly => "Unexpected end of file"
  | .tooLarge => "Buffer is too small"
  | .inconsistent => "Internal parser error Verify"

/-- Where a problem turned up, in words. -/
def CaptureFormat.context (f : CaptureFormat) (opening : Bool) : String :=
  (match f with | .pcap => "pcap" | .pcapng => "pcapng") ++ " reader " ++
    (if opening then "init" else "next")

/-- The error in words. -/
def CaptureError.message : CaptureError → String
  | .file e => "I/O error: " ++ e.message
  | .format f opening problem =>
    "PCAP parse error: " ++ f.context opening ++ ": " ++ problem.message
  | .other reason => "PCAP parse error: " ++ reason

end PacketTree
