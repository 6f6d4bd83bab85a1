import ApiSchema.Source.Grammar.Rule

/-!
The grammar of Python source text. A suite is the rest of a line or an indented block; a simple
statement ends where its line does. Some constructs of the second version of the language are part
of it.

Main definitions: `rules`, the rule of every form and group; `inlined`, the groups that stand for
their alternatives wherever they occur; `reserved`, the words that are never names.
-/
namespace ApiSchema.Source.Grammar

open Rule

/-! ## Precedences -/

namespace Precedence

def lambda : Int := -2
def typedParameter : Int := -1
def conditional : Int := -1
def parenthesized : Int := 1
def disjunction : Int := 10
def conjunction : Int := 11
def negation : Int := 12
def comparison : Int := 13
def bitwiseOr : Int := 14
def bitwiseAnd : Int := 15
def exclusiveOr : Int := 16
def shift : Int := 17
def sum : Int := 18
def product : Int := 19
def unary : Int := 20
def power : Int := 21
def call : Int := 22

end Precedence

/-! ## Parts that many rules share -/

def expression : Rule := group .expression

def primary : Rule := group .primaryExpression

def identifier : Rule := token .identifier

def comma : Rule := mark ","

def colon : Rule := mark ":"

def suite : Rule := group .suite

def commaList (r : Rule) : Rule := seq (commaSeparated r) (optional comma)

def between (opening : String) (r : Rule) (closing : String) : Rule :=
  all [mark opening, r, mark closing]

/-- What follows a first part in a list without brackets: a comma, or more parts. -/
def listTail (r : Rule) : Rule :=
  oneOf [comma, seq (many (seq comma r)) (optional comma)]

def splatTarget : Rule :=
  oneOf [identifier, group .keywordIdentifier, form .subscript, form .attribute]

/-! ## Statements -/

def statementRules : List (Name × Rule) := [
  (.form .module, any (group .statement)),
  (.group .statement, oneOf [group .simpleStatements, group .compoundStatement]),
  (.group .simpleStatements,
    all [separated ";" (group .simpleStatement), optional (mark ";"), token .newline]),
  (.group .simpleStatement,
    oneOf [form .futureImportStatement, form .importStatement, form .importFromStatement,
      form .printStatement, form .assertStatement, form .expressionStatement, form .returnStatement,
      form .deleteStatement, form .raiseStatement, form .passStatement, form .breakStatement,
      form .continueStatement, form .globalStatement, form .nonlocalStatement, form .execStatement,
      form .typeAliasStatement]),
  (.form .importStatement, seq (word "import") (group .importList)),
  (.form .importDots, many (mark ".")),
  (.form .relativeImport, seq (form .importDots) (optional (form .dottedName))),
  (.form .futureImportStatement,
    all [word "from", word "__future__", word "import",
      oneOf [group .importList, between "(" (group .importList) ")"]]),
  (.form .importFromStatement,
    all [word "from", role .moduleName (oneOf [form .relativeImport, form .dottedName]), word "import",
      oneOf [form .wildcardImport, group .importList, between "(" (group .importList) ")"]]),
  (.group .importList, commaList (role .name (oneOf [form .dottedName, form .aliasedImport]))),
  (.form .aliasedImport,
    all [role .name (form .dottedName), word "as", role .localName identifier]),
  (.form .wildcardImport, mark "*"),
  (.form .printStatement,
    oneOf [
      prec 1 (all [word "print", form .printTarget, any (seq comma (role .argument expression)),
        optional comma]),
      prec (-3) (weighted (-1) (all [word "print", commaSeparated (role .argument expression),
        optional comma]))]),
  (.form .printTarget, seq (mark ">>") expression),
  (.form .assertStatement, seq (word "assert") (commaSeparated expression)),
  (.form .expressionStatement,
    oneOf [expression, commaList expression, form .assignment, form .augmentedAssignment, form .yield]),
  (.form .namedExpression,
    all [role .name (group .namedTarget), mark ":=", role .value expression]),
  (.group .namedTarget, oneOf [identifier, group .keywordIdentifier]),
  (.form .returnStatement, seq (word "return") (optional (group .expressions))),
  (.form .deleteStatement, seq (word "del") (group .expressions)),
  (.group .expressions, oneOf [expression, form .expressionList]),
  (.form .raiseStatement,
    all [word "raise", optional (group .expressions), optional (seq (word "from") expression)]),
  (.form .passStatement, leftAssociative 0 (word "pass")),
  (.form .breakStatement, leftAssociative 0 (word "break")),
  (.form .continueStatement, leftAssociative 0 (word "continue")),
  (.group .compoundStatement,
    oneOf [form .ifStatement, form .forStatement, form .whileStatement, form .tryStatement,
      form .withStatement, form .functionDefinition, form .classDefinition, form .decoratedDefinition,
      form .matchStatement]),
  (.form .ifStatement,
    all [word "if", expression, colon, suite, any (role .alternative (form .elifClause)),
      optional (role .alternative (form .elseClause))]),
  (.form .elifClause, all [word "elif", expression, colon, suite]),
  (.form .elseClause, all [word "else", colon, role .body suite]),
  (.form .matchStatement,
    all [word "match", commaSeparated (role .subject expression), optional comma, colon,
      role .body (shown .block (group .matchBlock))]),
  (.group .matchBlock,
    oneOf [
      all [token .indent, any (role .alternative (form .caseClause)), token .dedent],
      token .newline]),
  (.form .caseClause,
    all [word "case", commaSeparated (form .casePattern), optional comma, optional (form .ifClause),
      colon, suite]),
  (.form .forStatement,
    all [optional (word "async"), word "for", role .left (group .leftSide), word "in",
      role .right (group .expressions), colon, role .body suite,
      role .alternative (optional (form .elseClause))]),
  (.form .whileStatement,
    all [word "while", expression, colon, role .body suite,
      optional (role .alternative (form .elseClause))]),
  (.form .tryStatement,
    all [word "try", colon, role .body suite, any (form .exceptClause), optional (form .elseClause),
      optional (form .finallyClause)]),
  (.form .exceptClause,
    all [word "except", optional (mark "*"),
      optional (seq (commaSeparated (role .value expression))
        (optional (seq (word "as") (role .localName expression)))),
      colon, suite]),
  (.form .finallyClause, all [word "finally", colon, suite]),
  (.form .withStatement,
    all [optional (word "async"), word "with", form .withClause, colon, role .body suite]),
  (.form .withClause,
    oneOf [commaList (form .withItem), between "(" (commaList (form .withItem)) ")"]),
  (.form .withItem, weighted 1 (role .value expression)),
  (.form .functionDefinition,
    all [optional (word "async"), word "def", role .name identifier, optional (form .typeParameters),
      role .parameters (form .parameters),
      optional (seq (mark "->") (role .returnType (form .typeNode))), colon, role .body suite]),
  (.form .parameters, between "(" (optional (group .parameters)) ")"),
  (.form .lambdaParameters, group .parameters),
  (.form .listSplat, seq (mark "*") expression),
  (.form .dictionarySplat, seq (mark "**") expression),
  (.form .globalStatement, seq (word "global") (commaSeparated identifier)),
  (.form .nonlocalStatement, seq (word "nonlocal") (commaSeparated identifier)),
  (.form .execStatement,
    all [word "exec", oneOf [form .string, identifier],
      optional (seq (word "in") (commaSeparated expression))]),
  (.form .typeAliasStatement,
    weighted 1 (all [word "type", role .left (form .typeNode), mark "=", role .right (form .typeNode)])),
  (.form .classDefinition,
    all [word "class", role .name identifier, optional (form .typeParameters),
      role .superclasses (optional (form .argumentList)), colon, role .body suite]),
  (.form .typeParameters, between "[" (commaList (form .typeNode)) "]"),
  (.form .parenthesizedSplat,
    prec Precedence.parenthesized (between "("
      (oneOf [shown .parenthesized (form .parenthesizedSplat), form .listSplat]) ")")),
  (.form .argumentList,
    all [mark "(",
      optional (commaSeparated (oneOf [expression, form .listSplat, form .dictionarySplat,
        shown .parenthesized (form .parenthesizedSplat), form .keywordArgument])),
      optional comma, mark ")"]),
  (.form .decoratedDefinition,
    seq (many (form .decorator))
      (role .definition (oneOf [form .classDefinition, form .functionDefinition]))),
  (.form .decorator, all [mark "@", expression, token .newline]),
  (.group .suite,
    oneOf [shown .block (group .simpleStatements), seq (token .indent) (form .block),
      shown .block (token .newline)]),
  (.form .block, seq (any (group .statement)) (token .dedent)),
  (.form .expressionList, rightAssociative 0 (seq expression (listTail expression))),
  (.form .dottedName, prec 1 (separated "." identifier))]

/-! ## Patterns -/

def patternNumber : Rule := oneOf [token .integer, token .float]

def patternsBetween (opening closing : String) : Rule :=
  between opening (optional (commaList (form .casePattern))) closing

def patternRules : List (Name × Rule) := [
  (.form .casePattern,
    prec 1 (oneOf [shown .asPattern (group .asPattern), form .keywordPattern, group .simplePattern])),
  (.group .simplePattern,
    prec 1 (oneOf [form .classPattern, form .splatPattern, form .unionPattern,
      shown .listPattern (group .listPattern), shown .tuplePattern (group .tuplePattern),
      form .dictionaryPattern, form .string, form .concatenatedString, word "True", word "False",
      word "None", seq (optional (mark "-")) patternNumber, form .complexPattern, form .dottedName,
      word "_"])),
  (.group .asPattern, all [form .casePattern, word "as", identifier]),
  (.form .unionPattern,
    rightAssociative 0 (seq (group .simplePattern)
      (many (leftAssociative 0 (seq (mark "|") (group .simplePattern)))))),
  (.group .listPattern, patternsBetween "[" "]"),
  (.group .tuplePattern, patternsBetween "(" ")"),
  (.form .dictionaryPattern,
    between "\x7b" (optional (commaList (oneOf [group .keyValuePattern, form .splatPattern]))) "\x7d"),
  (.group .keyValuePattern,
    all [role .key (group .simplePattern), colon, role .value (form .casePattern)]),
  (.form .keywordPattern, all [identifier, mark "=", group .simplePattern]),
  (.form .splatPattern,
    prec 1 (seq (oneOf [mark "*", mark "**"]) (oneOf [identifier, word "_"]))),
  (.form .classPattern, seq (form .dottedName) (patternsBetween "(" ")")),
  (.form .complexPattern,
    prec 1 (all [optional (mark "-"), patternNumber, oneOf [mark "+", mark "-"], patternNumber])),
  (.group .parameters, commaList (group .parameter)),
  (.group .patterns, commaList (group .pattern)),
  (.group .parameter,
    oneOf [identifier, form .typedParameter, form .defaultParameter, form .typedDefaultParameter,
      form .listSplatPattern, form .tuplePattern, form .keywordSeparator, form .positionalSeparator,
      form .dictionarySplatPattern]),
  (.group .pattern,
    oneOf [identifier, group .keywordIdentifier, form .subscript, form .attribute,
      form .listSplatPattern, form .tuplePattern, form .listPattern]),
  (.form .tuplePattern, between "(" (optional (group .patterns)) ")"),
  (.form .listPattern, between "[" (optional (group .patterns)) "]"),
  (.form .defaultParameter,
    all [role .name (oneOf [identifier, form .tuplePattern]), mark "=", role .value expression]),
  (.form .typedDefaultParameter,
    prec Precedence.typedParameter (all [role .name identifier, colon, role .type (form .typeNode),
      mark "=", role .value expression])),
  (.form .listSplatPattern, seq (mark "*") splatTarget),
  (.form .dictionarySplatPattern, seq (mark "**") splatTarget),
  (.form .asPattern,
    leftAssociative 0 (all [expression, word "as",
      role .localName (shown .asPatternTarget expression)]))]

/-! ## Expressions -/

def binary (associate : Int → Rule → Rule) (precedence : Int) (operator : String) : Rule :=
  associate precedence (all [role .left primary, mark operator, role .right primary])

def joined (precedence : Int) (operator : String) : Rule :=
  leftAssociative precedence (all [role .left expression, word operator, role .right expression])

def comparisonOperator : Rule :=
  oneOf [mark "<", mark "<=", mark "==", mark "!=", mark ">=", mark ">", mark "<>", word "in",
    group .notIn, word "is", group .isNot]

def comprehension (opening : String) (body : Rule) (closing : String) : Rule :=
  all [mark opening, role .body body, group .comprehensionClauses, mark closing]

def augmentedOperators : List String :=
  ["+=", "-=", "*=", "/=", "@=", "//=", "%=", "**=", ">>=", "<<=", "&=", "^=", "|="]

def expressionRules : List (Name × Rule) := [
  (.group .loopExpression, oneOf [expression, shown .lambda (form .loopLambda)]),
  (.group .expression,
    oneOf [form .comparison, form .notOperator, form .booleanOperator, form .lambda, primary,
      form .conditional, form .namedExpression, form .asPattern]),
  (.group .primaryExpression,
    oneOf [form .await, form (.binaryOperator ""), identifier, group .keywordIdentifier, form .string,
      form .concatenatedString, token .integer, token .float, word "True", word "False", word "None",
      form .unaryOperator, form .attribute, form .subscript, form .call, form .list,
      form .listComprehension, form .dictionary, form .dictionaryComprehension, form .set,
      form .setComprehension, form .tuple, form .parenthesized, form .generatorExpression, mark "...",
      shown .listSplat (form .listSplatPattern)]),
  (.form .notOperator,
    prec Precedence.negation (seq (word "not") (role .argument expression))),
  (.form .booleanOperator,
    oneOf [joined Precedence.conjunction "and", joined Precedence.disjunction "or"]),
  (.form (.binaryOperator ""),
    oneOf [
      binary leftAssociative Precedence.sum "+",
      binary leftAssociative Precedence.sum "-",
      binary leftAssociative Precedence.product "*",
      binary leftAssociative Precedence.product "@",
      binary leftAssociative Precedence.product "/",
      binary leftAssociative Precedence.product "%",
      binary leftAssociative Precedence.product "//",
      binary rightAssociative Precedence.power "**",
      binary leftAssociative Precedence.bitwiseOr "|",
      binary leftAssociative Precedence.bitwiseAnd "&",
      binary leftAssociative Precedence.exclusiveOr "^",
      binary leftAssociative Precedence.shift "<<",
      binary leftAssociative Precedence.shift ">>"]),
  (.form .unaryOperator,
    prec Precedence.unary (seq (oneOf [mark "+", mark "-", mark "~"]) (role .argument primary))),
  (.group .notIn, seq (word "not") (word "in")),
  (.group .isNot, seq (word "is") (word "not")),
  (.form .comparison,
    leftAssociative Precedence.comparison (seq primary (many (seq comparisonOperator primary)))),
  (.form .lambda,
    prec Precedence.lambda (all [word "lambda", role .parameters (optional (form .lambdaParameters)),
      colon, role .body expression])),
  (.form .loopLambda,
    all [word "lambda", role .parameters (optional (form .lambdaParameters)), colon,
      role .body (group .loopExpression)]),
  (.form .assignment,
    seq (role .left (group .leftSide))
      (oneOf [
        seq (mark "=") (role .right (group .rightSide)),
        seq colon (role .type (form .typeNode)),
        all [colon, role .type (form .typeNode), mark "=", role .right (group .rightSide)]])),
  (.form .augmentedAssignment,
    all [role .left (group .leftSide), oneOf (augmentedOperators.map mark),
      role .right (group .rightSide)]),
  (.group .leftSide, oneOf [group .pattern, form .patternList]),
  (.form .patternList, leftAssociative 0 (seq (group .pattern) (listTail (group .pattern)))),
  (.group .rightSide,
    oneOf [expression, form .expressionList, form .assignment, form .augmentedAssignment,
      form .patternList, form .yield]),
  (.form .yield,
    rightAssociative 0 (seq (word "yield")
      (oneOf [seq (word "from") expression, optional (group .expressions)]))),
  (.form .attribute,
    prec Precedence.call (all [role .object primary, mark ".", role .attribute identifier])),
  (.form .subscript,
    prec Precedence.call (all [role .value primary, mark "[",
      commaSeparated (role .subscript (oneOf [expression, form .slice])), optional comma, mark "]"])),
  (.form .slice,
    all [optional expression, colon, optional expression,
      optional (seq colon (optional expression))]),
  (.form .call,
    prec Precedence.call (seq (role .function primary)
      (role .arguments (oneOf [form .generatorExpression, form .argumentList])))),
  (.form .typedParameter,
    prec Precedence.typedParameter (all [
      oneOf [identifier, form .listSplatPattern, form .dictionarySplatPattern], colon,
      role .type (form .typeNode)])),
  (.form .typeNode,
    oneOf [prec 1 expression, form .splatType, form .genericType, form .unionType,
      form .constrainedType, form .memberType]),
  (.form .splatType, prec 1 (seq (oneOf [mark "*", mark "**"]) identifier)),
  (.form .genericType,
    prec 1 (seq (oneOf [identifier, shown .identifier (word "type")]) (form .typeParameters))),
  (.form .unionType, leftAssociative 0 (all [form .typeNode, mark "|", form .typeNode])),
  (.form .constrainedType, rightAssociative 0 (all [form .typeNode, colon, form .typeNode])),
  (.form .memberType, all [form .typeNode, mark ".", identifier]),
  (.form .keywordArgument,
    all [role .name (oneOf [identifier, group .keywordIdentifier]), mark "=", role .value expression])]

/-! ## Displays and literals -/

def displayRules : List (Name × Rule) := [
  (.form .list, between "[" (optional (group .collectionElements)) "]"),
  (.form .set, between "\x7b" (group .collectionElements) "\x7d"),
  (.form .tuple, between "(" (optional (group .collectionElements)) ")"),
  (.form .dictionary,
    all [mark "\x7b", optional (commaSeparated (oneOf [form .pair, form .dictionarySplat])),
      optional comma, mark "\x7d"]),
  (.form .pair, all [role .key expression, colon, role .value expression]),
  (.form .listComprehension, comprehension "[" expression "]"),
  (.form .dictionaryComprehension, comprehension "\x7b" (form .pair) "\x7d"),
  (.form .setComprehension, comprehension "\x7b" expression "\x7d"),
  (.form .generatorExpression, comprehension "(" expression ")"),
  (.group .comprehensionClauses,
    seq (form .forInClause) (any (oneOf [form .forInClause, form .ifClause]))),
  (.form .parenthesized,
    prec Precedence.parenthesized (between "(" (oneOf [expression, form .yield]) ")")),
  (.group .collectionElements,
    commaList (oneOf [expression, form .yield, form .listSplat,
      shown .parenthesized (form .parenthesizedSplat), shown .dictionarySplat (group .collectionSplat)])),
  (.group .collectionSplat, prec (-1) (seq (mark "**") expression)),
  (.form .forInClause,
    leftAssociative 0 (all [optional (word "async"), word "for", role .left (group .leftSide),
      word "in", role .right (commaSeparated (group .loopExpression)), optional comma])),
  (.form .ifClause, seq (word "if") expression),
  (.form .conditional,
    rightAssociative Precedence.conditional
      (all [expression, word "if", expression, word "else", expression])),
  (.form .concatenatedString, seq (form .string) (many (form .string))),
  (.form .string,
    all [token .stringStart, any (oneOf [form .interpolation, form .stringContent]),
      token .stringEnd]),
  (.form .stringContent,
    rightAssociative 0 (many (oneOf [token .braceEscape, token .escape, token .backslash,
      token .stringText]))),
  (.form .interpolation,
    all [mark "\x7b", group .fieldExpression, optional (mark "="), optional (token .conversion),
      optional (form .formatSpecification), mark "\x7d"]),
  (.group .fieldExpression,
    oneOf [expression, form .expressionList, form .patternList, form .yield]),
  (.form .formatSpecification,
    seq colon (any (oneOf [token .formatText, shown .formatField (form .interpolation)]))),
  (.group .keywordIdentifier,
    oneOf [
      prec (-3) (shown .identifier (oneOf [word "print", word "exec", word "async", word "await"])),
      shown .identifier (oneOf [word "type", word "match"])]),
  (.form .await, prec Precedence.unary (seq (word "await") primary)),
  (.form .positionalSeparator, mark "/"),
  (.form .keywordSeparator, mark "*")]

def rules : List (Name × Rule) := statementRules ++ patternRules ++ expressionRules ++ displayRules

/-- Groups that stand for their alternatives wherever they occur. -/
def inlined : List Group :=
  [.simpleStatement, .compoundStatement, .suite, .expressions, .leftSide, .keywordIdentifier]

def families : List Group := [.expression, .primaryExpression, .pattern, .parameter]

def reserved : List String :=
  ["False", "None", "True", "and", "as", "assert", "async", "await", "break", "class", "continue", "def",
    "del", "elif", "else", "except", "finally", "for", "from", "global", "if", "import", "in", "is",
    "lambda", "nonlocal", "not", "or", "pass", "raise", "return", "try", "while", "with", "yield"]

end ApiSchema.Source.Grammar
