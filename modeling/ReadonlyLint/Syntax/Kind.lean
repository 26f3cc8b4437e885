/-!
The kinds of node in a C# syntax tree. Kinds that some rule of the analysis looks at have a
constructor of their own; every other kind keeps its name. `Kind.name` and `Kind.ofName` go
between a kind and its name in the grammar, and `Kind.name_ofName` says that no name is lost.
-/
namespace ReadonlyLint

/-- What a node of the syntax tree is. -/
inductive Kind where
  | comment | attributeList | typeArgumentList | predefinedType | typeofExpression
  | sizeofExpression | block | localFunctionStatement | lambdaExpression
  | anonymousMethodExpression | foreachStatement | fixedStatement | forStatement | whileStatement
  | doStatement | usingStatement | catchClause | switchSection | switchExpressionArm
  | queryExpression | returnStatement | variableDeclaration | variableDeclarator
  | declarationExpression | declarationPattern | recursivePattern | varPattern | tuplePattern
  | parenthesizedVariableDesignation | catchDeclaration | fromClause | letClause | joinClause
  | joinIntoClause | queryContinuation | assignmentExpression | prefixUnaryExpression
  | postfixUnaryExpression | argument | refExpression | invocationExpression | identifier
  | genericName | qualifiedName | aliasQualifiedName | memberAccessExpression
  | elementAccessExpression | objectCreationExpression | implicitObjectCreationExpression
  | withExpression | withInitializer | anonymousObjectCreationExpression
  | arrayCreationExpression | stackallocExpression | arrayRankSpecifier | implicitParameter
  | binaryExpression | castExpression | conditionalExpression | parenthesizedExpression
  | tupleExpression | initializerExpression | elementBindingExpression | memberBindingExpression
  | arrowExpressionClause | structDeclaration | recordDeclaration | classDeclaration
  | interfaceDeclaration | delegateDeclaration | enumDeclaration | typeParameterList
  | typeParameterConstraintsClause | typeParameterConstraint | fieldDeclaration
  | eventFieldDeclaration | eventDeclaration | methodDeclaration | operatorDeclaration
  | conversionOperatorDeclaration | propertyDeclaration | indexerDeclaration
  | accessorDeclaration | modifier | explicitInterfaceSpecifier | parameterList | parameter
  | pointerType | refType | scopedType | arrayType | functionPointerType | tupleType
  | nullableType | implicitType | error
  -- keywords and punctuation
  | thisToken | baseToken | refToken | outToken | inToken | withToken | readonlyToken
  | structToken | recordToken | classToken | unmanagedToken | getToken | setToken | initToken
  | addToken | removeToken | assign | addAssign | subAssign | increment | decrement | ampersand
  | star | bang | tilde | minus | plus | caret | pointerArrow | openParen | closeParen
  | openBrace | closeBrace | comma
  /-- A region of the preprocessor, such as the part between `#if` and `#endif`. -/
  | preprocessor (name : String)
  /-- Any other kind, by its name. -/
  | other (name : String)
  deriving DecidableEq, Inhabited

namespace Kind

/-- The kinds with a constructor of their own. -/
def known : List Kind :=
  [.comment, .attributeList, .typeArgumentList, .predefinedType, .typeofExpression,
   .sizeofExpression, .block, .localFunctionStatement, .lambdaExpression,
   .anonymousMethodExpression, .foreachStatement, .fixedStatement, .forStatement,
   .whileStatement, .doStatement, .usingStatement, .catchClause, .switchSection,
   .switchExpressionArm, .queryExpression, .returnStatement, .variableDeclaration,
   .variableDeclarator, .declarationExpression, .declarationPattern, .recursivePattern,
   .varPattern, .tuplePattern, .parenthesizedVariableDesignation, .catchDeclaration, .fromClause,
   .letClause, .joinClause, .joinIntoClause, .queryContinuation, .assignmentExpression,
   .prefixUnaryExpression, .postfixUnaryExpression, .argument, .refExpression,
   .invocationExpression, .identifier, .genericName, .qualifiedName, .aliasQualifiedName,
   .memberAccessExpression, .elementAccessExpression, .objectCreationExpression,
   .implicitObjectCreationExpression, .withExpression, .withInitializer,
   .anonymousObjectCreationExpression, .arrayCreationExpression, .stackallocExpression,
   .arrayRankSpecifier, .implicitParameter, .binaryExpression, .castExpression,
   .conditionalExpression, .parenthesizedExpression, .tupleExpression, .initializerExpression,
   .elementBindingExpression, .memberBindingExpression, .arrowExpressionClause,
   .structDeclaration, .recordDeclaration, .classDeclaration, .interfaceDeclaration,
   .delegateDeclaration, .enumDeclaration, .typeParameterList, .typeParameterConstraintsClause,
   .typeParameterConstraint, .fieldDeclaration, .eventFieldDeclaration, .eventDeclaration,
   .methodDeclaration, .operatorDeclaration, .conversionOperatorDeclaration,
   .propertyDeclaration, .indexerDeclaration, .accessorDeclaration, .modifier,
   .explicitInterfaceSpecifier, .parameterList, .parameter, .pointerType, .refType, .scopedType,
   .arrayType, .functionPointerType, .tupleType, .nullableType, .implicitType, .error,
   .thisToken, .baseToken, .refToken, .outToken, .inToken, .withToken, .readonlyToken,
   .structToken, .recordToken, .classToken, .unmanagedToken, .getToken, .setToken, .initToken,
   .addToken, .removeToken, .assign, .addAssign, .subAssign, .increment, .decrement, .ampersand,
   .star, .bang, .tilde, .minus, .plus, .caret, .pointerArrow, .openParen, .closeParen,
   .openBrace, .closeBrace, .comma]

/-- The name of a kind in the grammar. A keyword or a punctuation mark is named by its text. -/
def name : Kind → String
  | .comment => "comment"
  | .attributeList => "attribute_list"
  | .typeArgumentList => "type_argument_list"
  | .predefinedType => "predefined_type"
  | .typeofExpression => "typeof_expression"
  | .sizeofExpression => "sizeof_expression"
  | .block => "block"
  | .localFunctionStatement => "local_function_statement"
  | .lambdaExpression => "lambda_expression"
  | .anonymousMethodExpression => "anonymous_method_expression"
  | .foreachStatement => "foreach_statement"
  | .fixedStatement => "fixed_statement"
  | .forStatement => "for_statement"
  | .whileStatement => "while_statement"
  | .doStatement => "do_statement"
  | .usingStatement => "using_statement"
  | .catchClause => "catch_clause"
  | .switchSection => "switch_section"
  | .switchExpressionArm => "switch_expression_arm"
  | .queryExpression => "query_expression"
  | .returnStatement => "return_statement"
  | .variableDeclaration => "variable_declaration"
  | .variableDeclarator => "variable_declarator"
  | .declarationExpression => "declaration_expression"
  | .declarationPattern => "declaration_pattern"
  | .recursivePattern => "recursive_pattern"
  | .varPattern => "var_pattern"
  | .tuplePattern => "tuple_pattern"
  | .parenthesizedVariableDesignation => "parenthesized_variable_designation"
  | .catchDeclaration => "catch_declaration"
  | .fromClause => "from_clause"
  | .letClause => "let_clause"
  | .joinClause => "join_clause"
  | .joinIntoClause => "join_into_clause"
  | .queryContinuation => "query_continuation"
  | .assignmentExpression => "assignment_expression"
  | .prefixUnaryExpression => "prefix_unary_expression"
  | .postfixUnaryExpression => "postfix_unary_expression"
  | .argument => "argument"
  | .refExpression => "ref_expression"
  | .invocationExpression => "invocation_expression"
  | .identifier => "identifier"
  | .genericName => "generic_name"
  | .qualifiedName => "qualified_name"
  | .aliasQualifiedName => "alias_qualified_name"
  | .memberAccessExpression => "member_access_expression"
  | .elementAccessExpression => "element_access_expression"
  | .objectCreationExpression => "object_creation_expression"
  | .implicitObjectCreationExpression => "implicit_object_creation_expression"
  | .withExpression => "with_expression"
  | .withInitializer => "with_initializer"
  | .anonymousObjectCreationExpression => "anonymous_object_creation_expression"
  | .arrayCreationExpression => "array_creation_expression"
  | .stackallocExpression => "stackalloc_expression"
  | .arrayRankSpecifier => "array_rank_specifier"
  | .implicitParameter => "implicit_parameter"
  | .binaryExpression => "binary_expression"
  | .castExpression => "cast_expression"
  | .conditionalExpression => "conditional_expression"
  | .parenthesizedExpression => "parenthesized_expression"
  | .tupleExpression => "tuple_expression"
  | .initializerExpression => "initializer_expression"
  | .elementBindingExpression => "element_binding_expression"
  | .memberBindingExpression => "member_binding_expression"
  | .arrowExpressionClause => "arrow_expression_clause"
  | .structDeclaration => "struct_declaration"
  | .recordDeclaration => "record_declaration"
  | .classDeclaration => "class_declaration"
  | .interfaceDeclaration => "interface_declaration"
  | .delegateDeclaration => "delegate_declaration"
  | .enumDeclaration => "enum_declaration"
  | .typeParameterList => "type_parameter_list"
  | .typeParameterConstraintsClause => "type_parameter_constraints_clause"
  | .typeParameterConstraint => "type_parameter_constraint"
  | .fieldDeclaration => "field_declaration"
  | .eventFieldDeclaration => "event_field_declaration"
  | .eventDeclaration => "event_declaration"
  | .methodDeclaration => "method_declaration"
  | .operatorDeclaration => "operator_declaration"
  | .conversionOperatorDeclaration => "conversion_operator_declaration"
  | .propertyDeclaration => "property_declaration"
  | .indexerDeclaration => "indexer_declaration"
  | .accessorDeclaration => "accessor_declaration"
  | .modifier => "modifier"
  | .explicitInterfaceSpecifier => "explicit_interface_specifier"
  | .parameterList => "parameter_list"
  | .parameter => "parameter"
  | .pointerType => "pointer_type"
  | .refType => "ref_type"
  | .scopedType => "scoped_type"
  | .arrayType => "array_type"
  | .functionPointerType => "function_pointer_type"
  | .tupleType => "tuple_type"
  | .nullableType => "nullable_type"
  | .implicitType => "implicit_type"
  | .error => "ERROR"
  | .thisToken => "this"
  | .baseToken => "base"
  | .refToken => "ref"
  | .outToken => "out"
  | .inToken => "in"
  | .withToken => "with"
  | .readonlyToken => "readonly"
  | .structToken => "struct"
  | .recordToken => "record"
  | .classToken => "class"
  | .unmanagedToken => "unmanaged"
  | .getToken => "get"
  | .setToken => "set"
  | .initToken => "init"
  | .addToken => "add"
  | .removeToken => "remove"
  | .assign => "="
  | .addAssign => "+="
  | .subAssign => "-="
  | .increment => "++"
  | .decrement => "--"
  | .ampersand => "&"
  | .star => "*"
  | .bang => "!"
  | .tilde => "~"
  | .minus => "-"
  | .plus => "+"
  | .caret => "^"
  | .pointerArrow => "->"
  | .openParen => "("
  | .closeParen => ")"
  | .openBrace => "\x7b"
  | .closeBrace => "\x7d"
  | .comma => ","
  | .preprocessor name => name
  | .other name => name

/-- The kind with the given name. -/
def ofName (name : String) : Kind :=
  match known.find? (·.name = name) with
  | some kind => kind
  | none => if name.startsWith "preproc_" then .preprocessor name else .other name

@[simp] theorem name_ofName (name : String) : (ofName name).name = name := by
  unfold ofName
  split
  · rename_i kind h
    simpa using List.find?_some h
  · split <;> rfl

/-- Expressions of a body that can be asked for their storage. -/
def isExpression (k : Kind) : Bool :=
  k.name.endsWith "_expression" || k = .identifier || k = .thisToken

end Kind

end ReadonlyLint
