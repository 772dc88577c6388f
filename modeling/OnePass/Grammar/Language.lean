import OnePass.Grammar.Table

/-! # The grammar of the language

Statements are assignments, conditionals, loops, prints, blocks, declarations and the empty
statement. In an expression a sign applies to the whole term behind it. Actions stand where their
operands have just been parsed.
-/
namespace OnePass

/-- The rules of the language, in the order in which traces and tables number them. -/
def languageRules : List Rule :=
  [⟨.program, [Nonterminal.statement, Nonterminal.separatedList]⟩,
    ⟨.statement,
      [Terminal.identifier, Terminal.assignOp, Nonterminal.expression, Action.store]⟩,
    ⟨.statement,
      [Terminal.ifWord, Action.openLabels, Nonterminal.booleanExpression, Terminal.thenWord,
        Nonterminal.statement, Action.jumpBegin, Action.placeEnd, Nonterminal.elseClause,
        Action.placeBegin, Action.closeLabels, Action.clearRegisters]⟩,
    ⟨.statement,
      [Terminal.whileWord, Action.openLabels, Action.placeBegin, Action.clearRegisters,
        Nonterminal.booleanExpression, Terminal.doWord, Nonterminal.statement, Action.jumpBegin,
        Action.placeEnd, Action.closeLabels, Action.clearRegisters]⟩,
    ⟨.statement, [Terminal.printWord, Nonterminal.printExpression, Action.callPrint]⟩,
    ⟨.statement, [Terminal.beginWord, Nonterminal.statementList, Terminal.endWord]⟩,
    ⟨.statement, [Terminal.variableWord, Terminal.identifier, Action.declare]⟩,
    ⟨.statement, []⟩,
    ⟨.elseClause, [Terminal.elseWord, Nonterminal.statement]⟩,
    ⟨.elseClause, []⟩,
    ⟨.statementList, [Nonterminal.statement, Nonterminal.separatedList]⟩,
    ⟨.separatedList, [Terminal.separator, Nonterminal.statement, Nonterminal.separatedList]⟩,
    ⟨.separatedList, []⟩,
    ⟨.printExpression, [Nonterminal.expression, Action.integerFormat]⟩,
    ⟨.printExpression, [Terminal.stringConst, Action.stringFormat]⟩,
    ⟨.booleanExpression,
      [Nonterminal.expression, Terminal.relationalOp, Action.pushOperator, Nonterminal.expression,
        Action.compute]⟩,
    ⟨.expression, [Nonterminal.term, Nonterminal.addition]⟩,
    ⟨.addition,
      [Terminal.additiveOp, Action.pushOperator, Nonterminal.term, Action.compute,
        Nonterminal.addition]⟩,
    ⟨.addition, []⟩,
    ⟨.term, [Nonterminal.factor, Nonterminal.multiplication]⟩,
    ⟨.multiplication,
      [Terminal.multiplicativeOp, Action.pushOperator, Nonterminal.factor, Action.compute,
        Nonterminal.multiplication]⟩,
    ⟨.multiplication, []⟩,
    ⟨.factor, [Terminal.identifier]⟩,
    ⟨.factor, [Terminal.number]⟩,
    ⟨.factor, [Terminal.leftParen, Nonterminal.expression, Terminal.rightParen]⟩,
    ⟨.factor, [Nonterminal.signedTerm]⟩,
    ⟨.signedTerm,
      [Terminal.additiveOp, Action.pushOperator, Nonterminal.term, Action.sign]⟩]

def language : Grammar := ⟨.program, languageRules⟩

def languageLookaheads : List (List Terminal) :=
  let statements :=
    [Terminal.variableWord, .printWord, .ifWord, .whileWord, .beginWord, .identifier]
  let operands := [Terminal.identifier, .number, .additiveOp, .leftParen]
  let afterStatement := [Terminal.elseWord, .endWord, .separator, .endOfInput]
  let afterTerm := Terminal.thenWord :: .doWord :: .relationalOp :: .rightParen :: afterStatement
  [statements ++ [.separator, .endOfInput],
    [.identifier], [.ifWord], [.whileWord], [.printWord], [.beginWord], [.variableWord],
    afterStatement,
    [.elseWord], [.endWord, .separator, .endOfInput],
    statements ++ [.separator, .endWord],
    [.separator], [.endWord, .endOfInput],
    operands, [.stringConst],
    operands,
    operands,
    [.additiveOp], afterTerm,
    operands,
    [.multiplicativeOp], .additiveOp :: afterTerm,
    [.identifier], [.number], [.leftParen], [.additiveOp],
    [.additiveOp]]

def languageTable : ParseTable :=
  ⟨(languageRules.zip languageLookaheads).zipIdx.flatMap fun ((r, ts), i) =>
    ts.map fun t => ⟨t, i, r⟩⟩

end OnePass
