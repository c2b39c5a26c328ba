import PieceLedger.Bencode.Reader
import PieceLedger.Trace

/-!
The trace lines that tell why a buffer was refused.
-/

namespace PieceLedger.Bencode

open Trace

def Cause.line (offset : Nat) : Cause → Line
  | .lengthBeyondBuffer => .error (.bencode "parse_len" 285) "string length exceeds buffer"
  | .lengthMissing => .error (.bencode "parse_len" 293) "missing string length"
  | .colonMissing => .error (.bencode "parse_len" 301) "cur_ptr != :"
  | .lengthBeyondRest length left =>
      .error (.bencode "parse_len" 307) s!"string length[{length}] > left[{left}]"
  | .tooDeep => .error (.bencode "parse_obj" 321) s!"nesting depth > {maxDepth}"
  | .unknownKind => .error (.bencode "parse_obj" 394) s!"unrecognized type [OFF: {offset}]"
  | .integerTooLong => .error (.bencode "parse_int" 417) "integer too long"
  | .integerUnended => .error (.bencode "parse_int" 424) "m_cur_ptr != 'e'"
  | .integerMalformed written =>
      .errorWith (.bencode "parse_int" 438) "invalid integer: " written ""
  | .integerOutOfRange =>
      .error (.bencode "parse_int" 445) "performing strtoll errno != 0 [34]"
  | .listUnended => .error (.bencode "parse_list" 481) "unterminated list"
  | .dictUnended => .error (.bencode "parse_dict" 511) "unterminated dict"
  | .duplicateKey key => .errorWith (.bencode "parse_dict" 532) "duplicate dict key: " key ""

def Refusal.lines : Refusal → List Line
  | .notADict =>
      [.error (.bencode "init" 156) "buffer does not appear to bdecode a dict -no preceding 'd'"]
  | .malformed cause offset =>
      [cause.line offset, .error (.bencode "init" 164) s!"performing parse_dict [OFF: {offset}]"]

end PieceLedger.Bencode
