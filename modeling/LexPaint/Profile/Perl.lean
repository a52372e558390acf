import LexPaint.Profile.Variables
/-!
# Perl

Perl has heredocs, quote operators, strings that span lines, comments behind a hash sign, and
blocks of documentation that start with a command at the start of a line and run to `=cut`. Behind
a dollar sign a hash sign opens no comment.

## Main definitions

* `Profile.perl`.
-/

namespace LexPaint

namespace Dialect

/-- The heredocs of Perl: two angle brackets, an optional tilde and a tag. -/
def perlHeredocs : HeredocRules where
  opener := mark "<<"
  indentFlag := some 0x7E
  blanksBeforeTag := false
  terminator := .exactLine

/-- The quote operators of Perl. -/
def perlOperators : QuoteOperatorRules where
  operators := ["qq", "qw", "qr", "qx", "tr", "q", "m", "s", "y"].map mark
  twoPart := ["s", "tr", "y"].map mark

/-- The rules of Perl. -/
def perl : Dialect where
  tests := [
    (.commentMark, .filteredMark .notBehindDollar),
    (.lineStart, .startsLine),
    (.quoteOperator, .operatorPlace),
    (.heredoc, .unquoted)]
  lineMarks := [mark "#"]
  lineFilter := .notBehindDollar
  comments := none
  heredocs := some perlHeredocs
  operators := some perlOperators

end Dialect

namespace Profile

/-- The keywords of Perl. -/
def perlWords : List String :=
  ["__DATA__", "__END__", "__FILE__", "__LINE__", "__PACKAGE__", "and", "chomp", "close", "cmp",
   "defined", "delete", "die", "do", "each", "else", "elsif", "eq", "eval", "exists", "for",
   "foreach", "ge", "grep", "gt", "if", "join", "keys", "last", "le", "local", "lt", "map", "my",
   "ne", "next", "not", "open", "or", "our", "package", "pop", "print", "printf", "push", "redo",
   "ref", "require", "return", "scalar", "shift", "sort", "split", "sprintf", "sub", "undef",
   "unless", "unshift", "until", "use", "values", "wantarray", "warn", "while", "xor"]

/-- The commands that start a block of documentation. -/
def podStarts : List String :=
  ["=pod", "=head", "=begin", "=over", "=item", "=encoding"]

/-- Perl. -/
def perl : Profile where
  name := "perl"
  dialect := .perl
  program :=
    [.heredocs, .quoteOperators, .quotes false,
      .setCondition .commentMark, .lineComments [mark "#"]] ++
    podStarts.flatMap (fun start =>
      [.setCondition .lineStart, .blockComments (mark start) (mark "=cut") false]) ++
    [.keywords (perlWords.map mark) true ['$', '@', '%', '&', '-', '>'] .keyword,
      .signedVariable '$' variableEnds [],
      .signedVariable '@' variableEnds ['{'],
      .signedVariable '%' variableEnds ['=', '{', '('],
      .brackets,
      .braces]

end Profile

end LexPaint
